import Embag.BagMessages
import Embag.ViewMessages
import Embag.ViewReads

/-! Iterating over one bag yields each of its messages once and as it was written, exactly when
no chunk ends in a record without data. -/

namespace Embag

open LittleEndian

namespace StoredBag

variable {b : StoredBag} {bag : Bag} {codecs : Codecs} {i : ℕ}

structure Keeps (b : StoredBag) (codecs : Codecs) (bag : Bag) (i : ℕ) (records : List ChunkRecord) :
    Prop where
  ne_nil : records ≠ []
  mem : records ∈ b.contents
  chunk : ∃ chunk, bag.chunks[i]? = some chunk ∧
    chunk.uncompressedSize = (ChunkRecord.encodeAll records).length ∧
    chunk.decompress codecs bag.bagBytes = (ChunkRecord.encodeAll records, .ok ())

theorem keeps_of_chunkOf (h : b.Opens bag) (hcodecs : b.Decompresses codecs)
    (hi : i < bag.chunks.length) {records : List ChunkRecord}
    (hrecords : b.contents[b.chunkOf i]? = some records) : b.Keeps codecs bag i records := by
  obtain ⟨x, c, hx, hc, hchunk⟩ := h.exists_chunk hi
  have hchunkOf : b.chunkOf i = x.chunk := by
    rw [BagFile.chunkOf, hx]
    rfl
  rw [hchunkOf] at hrecords
  obtain ⟨hk, hck⟩ := List.getElem?_eq_some_iff.1 hc
  obtain ⟨hk', hrk⟩ := List.getElem?_eq_some_iff.1 hrecords
  have hstores : c.Stores records := by
    have hget := (List.forall₂_iff_get.1 b.stored).2 x.chunk hk hk'
    rwa [List.get_eq_getElem, List.get_eq_getElem, hck, hrk] at hget
  have hrestores := (List.forall₂_iff_get.1 hcodecs).2 x.chunk hk hk'
  simp only [List.get_eq_getElem, hck, hrk] at hrestores
  have hdata : readPointer bag.bagBytes (b.chunk x c).record.data (b.chunk x c).record.dataLen =
      .ok c.record.data := h.opened.readBack.data x (List.mem_of_getElem? hx) c hc
  refine ⟨hstores.ne_nil, List.mem_of_getElem? hrecords, _, hchunk, hstores.size, ?_⟩
  have hcompression := c.compression_mem
  simp only [Bag.compressions, List.mem_cons, List.not_mem_nil, or_false] at hcompression
  have hkind : (b.chunk x c).compression = c.compression := rfl
  have hsize : (b.chunk x c).uncompressedSize = c.size := rfl
  rw [Chunk.decompress, hdata, hkind, hsize]
  rcases hcompression with hlz4 | hbz2 | hnone
  · rw [if_pos hlz4]
    exact hrestores.1 hlz4
  · rw [if_neg (by rw [hbz2]; decide), if_pos hbz2]
    exact hrestores.2 hbz2
  · have hlen : (b.chunk x c).record.dataLen = c.record.data.length := rfl
    rw [hstores.plain hnone] at hdata hlen
    rw [hlen, ← hstores.size] at hdata
    rw [if_neg (by rw [hnone]; decide), if_neg (by rw [hnone]; decide), if_pos hnone, hdata]

theorem Keeps.size_pos {records : List ChunkRecord} (h : b.Keeps codecs bag i records) :
    0 < (ChunkRecord.encodeAll records).length := by
  obtain ⟨r, rest, rfl⟩ := List.exists_cons_of_ne_nil h.ne_nil
  exact ChunkRecord.length_lt [] rfl

theorem Keeps.exists_chunkHolds {records : List ChunkRecord} (h : b.Keeps codecs bag i records)
    (hend : ChunkRecord.EndsInData records) :
    ∃ ms, bag.ChunkHolds codecs i ms ∧ List.Forall₂
      (ChunkRecord.IsRead (ChunkRecord.encodeAll records)) (records.filterMap ChunkRecord.message?) ms := by
  obtain ⟨chunk, hchunk, hsize, hdecompress⟩ := h.chunk
  obtain ⟨ms, hms, hread⟩ := ChunkRecord.exists_chunkMessages [] rfl hend
  refine ⟨ms, ⟨chunk, _, hchunk, ?_, hdecompress, ?_⟩, hread⟩
  · rw [hsize]
    exact h.size_pos
  · rw [hsize]
    exact hms

theorem Keeps.not_chunkHolds {records : List ChunkRecord} (h : b.Keeps codecs bag i records)
    (hend : ¬ ChunkRecord.EndsInData records) (ms : List CurrentMessage) :
    ¬ bag.ChunkHolds codecs i ms := by
  obtain ⟨chunk, hchunk, hsize, hdecompress⟩ := h.chunk
  rintro ⟨chunk', buffer, hchunk', -, hdecompress', hms⟩
  rw [hchunk] at hchunk'
  cases hchunk'
  rw [hdecompress] at hdecompress'
  cases hdecompress'
  rw [hsize] at hms
  exact ChunkRecord.not_chunkMessages [] rfl hend ms hms

theorem forall₂_isRead_of_chunkHolds (h : b.Opens bag) (hcodecs : b.Decompresses codecs)
    (hend : ∀ records ∈ b.contents, ChunkRecord.EndsInData records) {x : FileChunkInfo} {ms : List CurrentMessage}
    (hx : b.infos[i]? = some x) (hms : bag.ChunkHolds codecs i ms) :
    ∃ records, b.contents[x.chunk]? = some records ∧ List.Forall₂ (ChunkRecord.IsRead (ChunkRecord.encodeAll records))
      (records.filterMap ChunkRecord.message?) ms := by
  have hlength : bag.chunks.length = b.infos.length := h.opened.chunks.length_eq.symm
  have hi : i < bag.chunks.length := hlength ▸ (List.getElem?_eq_some_iff.1 hx).1
  obtain ⟨x', c, hx', hc, -⟩ := h.exists_chunk hi
  rw [hx] at hx'
  cases hx'
  have hlt : x.chunk < b.contents.length := by
    rw [← b.stored.length_eq]
    exact (List.getElem?_eq_some_iff.1 hc).1
  have hcontents : b.contents[x.chunk]? = some b.contents[x.chunk] := List.getElem?_eq_getElem hlt
  have hkeeps : b.Keeps codecs bag i b.contents[x.chunk] := by
    refine keeps_of_chunkOf h hcodecs hi ?_
    rw [BagFile.chunkOf, hx]
    exact hcontents
  obtain ⟨ms', hms', hread⟩ := hkeeps.exists_chunkHolds (hend _ (List.getElem_mem hlt))
  rw [hms.unique hms']
  exact ⟨_, hcontents, hread⟩

/-- The chunks to parse are those of the contents, one for one. -/
theorem keeps_contents (h : b.Opens bag) (hcodecs : b.Decompresses codecs) (n : ℕ) :
    List.Forall₂ (b.Keeps codecs bag) (View.wrapper .all n bag).scan.chunksToParse b.contents := by
  have hlength : b.chunks.length = b.contents.length := b.stored.length_eq
  have hcontents : List.Forall₂ (fun k records => b.contents[k]? = some records)
      (List.range b.chunks.length) b.contents := by
    refine List.forall₂_iff_get.2 ⟨by simp [hlength], fun k hk hk' => ?_⟩
    simp
  rw [← h.chunkOf_allChunks n, List.forall₂_map_left_iff] at hcontents
  rw [List.forall₂_iff_zip] at hcontents ⊢
  refine ⟨hcontents.1, fun {i records} hmem => ?_⟩
  exact keeps_of_chunkOf h hcodecs (h.mem_allChunks.1 (List.of_mem_zip hmem).1) (hcontents.2 hmem)

def IsRead (r : MessageRecord) (c : CurrentMessage) : Prop := ∃ buffer, ChunkRecord.IsRead buffer r c

theorem exists_connection_of_mem {r : MessageRecord} (hr : r ∈ b.messageRecords) :
    ∃ c ∈ b.connections, c.id = r.connection := by
  obtain ⟨record, hrecord, hmessage⟩ := List.mem_filterMap.1 hr
  obtain ⟨records, hrecords, hmem⟩ := List.mem_flatten.1 hrecord
  have hknown := b.known records hrecords record hmem
  have hid : record.connectionId = r.connection := by
    cases record with
    | message r' => cases hmessage; rfl
    | connection => cases hmessage
  rw [hid] at hknown
  exact b.exists_connection hknown

theorem exists_fileOrder (h : b.Opens bag) (hcodecs : b.Decompresses codecs)
    (hend : ∀ records ∈ b.contents, ChunkRecord.EndsInData records) (n : ℕ) :
    ∃ ms, View.FileOrder codecs .all n bag ms ∧ List.Forall₂ IsRead b.messageRecords ms := by
  have hchunks : ∀ {ps : List ℕ} {contents : List (List ChunkRecord)},
      List.Forall₂ (b.Keeps codecs bag) ps contents →
      ∃ mss, bag.ChunksHold codecs ps mss ∧
        List.Forall₂ IsRead (contents.flatten.filterMap ChunkRecord.message?) mss.flatten := by
    intro ps contents hkeeps
    induction hkeeps with
    | nil => exact ⟨[], .nil, .nil⟩
    | cons hp _ ih =>
      obtain ⟨ms, hms, hread⟩ := hp.exists_chunkHolds (hend _ hp.mem)
      obtain ⟨mss, hmss, hall⟩ := ih
      refine ⟨ms :: mss, .cons hms hmss, ?_⟩
      rw [List.flatten_cons, List.flatten_cons, List.filterMap_append]
      exact List.rel_append (hread.imp fun _ _ hr => ⟨_, hr⟩) hall
  obtain ⟨mss, hmss, hread⟩ := hchunks (keeps_contents h hcodecs n)
  -- every record is of a connection of the bag
  have hwanted : (View.wrapper .all n bag).scan.wanted mss.flatten = mss.flatten := by
    rw [Scan.wanted, List.filter_eq_self]
    intro c hc
    obtain ⟨r, hr, buffer, hrc⟩ := Loops.forall₂_mem_right hread hc
    obtain ⟨d, hd, hid⟩ := exists_connection_of_mem hr
    simpa [View.wrapper, View.plainWrapper, h.length_connections, hrc.connectionId, ← hid]
      using BagFile.id_lt hd
  exact ⟨_, ⟨OrderedSet.ordered_ofList _, mss, hmss, hwanted.symm⟩, hread⟩

theorem returns_of_id (h : b.Opens bag) {d : FileConnection} (hd : d ∈ b.connections) {c : CurrentMessage}
    (hid : d.id = c.connectionId) : bag.Returns c := by
  obtain ⟨first, hfirst, hfind⟩ := b.exists_firstOf hd
  obtain ⟨m, hm⟩ := b.accepted first hfirst
  exact ⟨b.connectionRecord d, m, hid ▸ h.connection hd, (h.schemaOf hfind).trans hm⟩

theorem returns_of_isRead (h : b.Opens bag) {r : MessageRecord} (hr : r ∈ b.messageRecords)
    {c : CurrentMessage} (hc : IsRead r c) : bag.Returns c := by
  obtain ⟨d, hd, hid⟩ := exists_connection_of_mem hr
  obtain ⟨buffer, hread⟩ := hc
  exact returns_of_id h hd (hid.trans hread.connectionId.symm)

theorem isMessage_of_isRead (h : b.Opens bag) {r : MessageRecord} {c : CurrentMessage}
    (hc : IsRead r c) {m : RosMessage} (hm : bag.message c = some m) : b.IsMessage r m := by
  obtain ⟨buffer, hread⟩ := hc
  rw [Bag.message, Option.map_eq_some_iff] at hm
  obtain ⟨connection, hconnection, rfl⟩ := hm
  obtain ⟨d, hd, hid, rfl⟩ := h.exists_connection hconnection
  exact ⟨⟨d, hd, hid.trans hread.connectionId, rfl, rfl⟩, hread.timestamp, _, hread.messageBuffer,
    hread.data⟩

theorem forall₂_isMessage (h : b.Opens bag) {rs : List MessageRecord} {cs : List CurrentMessage}
    {out : List RosMessage} (hrs : List.Forall₂ IsRead rs cs)
    (hcs : List.Forall₂ (fun c m => bag.message c = some m) cs out) : List.Forall₂ b.IsMessage rs out := by
  induction hrs generalizing out with
  | nil =>
    cases hcs
    exact .nil
  | cons hr _ ih =>
    cases hcs with
    | cons hc hcs => exact .cons (isMessage_of_isRead h hr hc) (ih hcs)

theorem endsInData_iff {records : List ChunkRecord} :
    ChunkRecord.EndsInData records ↔
      ∀ r, records.getLast? = some (.message r) → r.data ≠ [] := by
  constructor
  · intro hend r hr
    exact hend _ hr
  · intro hend r hr
    cases r with
    | message m => exact hend m hr
    | connection c _ =>
      intro hnil
      have hlen := c.eight_le_data
      rw [show c.fields.encode = [] from hnil] at hlen
      simp at hlen

/-- Whatever the order of the wrappers, a view prepared for all messages of the bag comes from
`begin()` to `end()`, and yields the messages of the bag. -/
def Iterates (b : StoredBag) (env : Env) (view : View) (world : World) : Prop :=
  ∀ order, order.Perm (view.getMessages .all world).2.wrappers →
    ∃ st out st', (view.getMessages .all world).1.begin env order = (st.1, .ok st.2) ∧
      Steps env st out st' ∧ st'.2.atEnd ∧
      List.Forall₂ b.IsMessage b.messageRecords (out.map Prod.snd)

section Iterates

variable {env : Env} {files : List BagFile} {world : World} {view : View} {n : ℕ}

theorem iterates_of_endsInData (hcodecs : b.Decompresses env.codecs) (hfiles : world.OpenedFrom files)
    (hn : files[n]? = some b.toBagFile) (hview : view.bags = [n])
    (hend : ∀ records ∈ b.contents, ChunkRecord.EndsInData records) : b.Iterates env view world := by
  intro order horder
  have hlength : files.length = world.bags.length := List.Forall₂.length_eq hfiles
  obtain ⟨hlt, hfile⟩ := List.getElem?_eq_some_iff.1 hn
  have hbags : ∀ k ∈ view.bags, k < world.bags.length := by
    rw [hview]
    simpa [← hlength] using hlt
  have hbag : world.bags[n]? = some (world.bags.get ⟨n, hlength ▸ hlt⟩) :=
    List.getElem?_eq_getElem (hlength ▸ hlt : n < world.bags.length)
  have hopens : b.Opens (world.bags.get ⟨n, hlength ▸ hlt⟩) := by
    have hget := (List.forall₂_iff_get.1 hfiles).2 n hlt (hlength ▸ hlt)
    rwa [List.get_eq_getElem, hfile] at hget
  generalize world.bags.get ⟨n, hlength ▸ hlt⟩ = bag at hbag hopens
  obtain ⟨ms, hms, hread⟩ := exists_fileOrder hopens hcodecs hend n
  have hreturns : ∀ c ∈ ms, bag.Returns c := by
    intro c hc
    obtain ⟨r, hr, hrc⟩ := Loops.forall₂_mem_right hread hc
    exact returns_of_isRead hopens hr hrc
  obtain ⟨st, out, st', hbegin, hsteps, hatEnd⟩ := View.exists_pass env .all
    (fun k => if k = n then ms else []) hbags hfiles.schemataSound
    (fun k hk => by rw [hview, List.mem_singleton] at hk; rw [if_neg hk])
    (fun k hk bag hsome => by
      rw [hview, List.mem_singleton] at hk
      subst hk
      rw [hbag] at hsome
      cases hsome
      simpa using ⟨hms, hreturns⟩) horder
  refine ⟨st, out, st', hbegin, hsteps, hatEnd, ?_⟩
  obtain ⟨hmem, hstreams⟩ := View.Begins.messages ⟨order, horder, hbegin⟩ hbags hfiles.schemataSound
    hsteps hatEnd
  obtain ⟨bag', ms', hbag', hms', hshown⟩ := hstreams n (by simp [hview])
  rw [hbag] at hbag'
  cases hbag'
  have hout : (out.filter fun x => x.1 = n) = out := by
    rw [List.filter_eq_self]
    intro x hx
    simpa [hview] using hmem x hx
  have hsame : ms' = ms := by
    obtain ⟨-, mss, hmss, rfl⟩ := hms
    obtain ⟨-, mss', hmss', rfl⟩ := hms'
    rw [Bag.ChunksHold.unique hmss' hmss]
  subst hsame
  rw [hout] at hshown
  exact forall₂_isMessage hopens hread hshown

theorem endsInData_of_iterates (hcodecs : b.Decompresses env.codecs) (hfiles : world.OpenedFrom files)
    (hn : files[n]? = some b.toBagFile) (hview : view.bags = [n]) (h : b.Iterates env view world) :
    ∀ records ∈ b.contents, ChunkRecord.EndsInData records := by
  intro records hrecords
  have hlength : files.length = world.bags.length := List.Forall₂.length_eq hfiles
  obtain ⟨hlt, hfile⟩ := List.getElem?_eq_some_iff.1 hn
  have hbags : ∀ k ∈ view.bags, k < world.bags.length := by
    rw [hview]
    simpa [← hlength] using hlt
  obtain ⟨st, out, st', hbegin, hsteps, hatEnd, -⟩ := h _ (List.Perm.refl _)
  obtain ⟨-, hstreams⟩ := View.Begins.messages ⟨_, List.Perm.refl _, hbegin⟩ hbags
    hfiles.schemataSound hsteps hatEnd
  obtain ⟨bag, ms, hbag, ⟨-, mss, hmss, -⟩, -⟩ := hstreams n (by simp [hview])
  obtain ⟨f, hf, hopens⟩ := hfiles.opens hbag
  rw [hn] at hf
  cases hf
  have hkeeps := keeps_contents hopens hcodecs n
  obtain ⟨i, hi, hkeep⟩ := Loops.forall₂_mem_right hkeeps hrecords
  by_contra hend
  obtain ⟨ms', -, hms'⟩ := Loops.forall₂_mem_right (List.Forall₂.flip hmss) hi
  exact hkeep.not_chunkHolds hend ms' hms'

/-- No message is lost or altered just when no chunk ends in a message without data. -/
theorem iterates_iff (hcodecs : b.Decompresses env.codecs) (hfiles : world.OpenedFrom files)
    (hn : files[n]? = some b.toBagFile) (hview : view.bags = [n]) :
    b.Iterates env view world ↔
      ∀ records ∈ b.contents, ∀ r, records.getLast? = some (.message r) → r.data ≠ [] := by
  simp only [← endsInData_iff]
  exact ⟨endsInData_of_iterates hcodecs hfiles hn hview,
    iterates_of_endsInData hcodecs hfiles hn hview⟩

end Iterates

theorem openedFrom_sample (empty : Bool) :
    World.OpenedFrom [(sampleBag empty).toBagFile] { bags := [sampleOpened empty] } :=
  .cons (BagFile.opens_of_ofBytes (ofBytes_sampleBag empty)) .nil

theorem endsInData_sample {records : List ChunkRecord} (h : records ∈ (sampleBag false).contents) :
    ChunkRecord.EndsInData records := by
  cases List.mem_singleton.1 h
  exact endsInData_iff.2 fun r hr => by cases hr; decide

theorem endsInData_pairBag : ∀ records ∈ pairBag.contents, ChunkRecord.EndsInData records := by
  intro records hrecords
  rcases List.mem_pair.1 hrecords with rfl | rfl
  · exact endsInData_iff.2 fun r hr => by cases hr; decide
  · exact endsInData_iff.2 fun r hr => by cases hr; decide

theorem iterates_sample :
    (sampleBag false).Iterates sampleEnv { bags := [0] } { bags := [sampleOpened false] } := by
  refine (iterates_iff (decompresses_sampleBag _ false) (openedFrom_sample false) (n := 0) rfl rfl).2 ?_
  exact fun records hrecords => endsInData_iff.1 (endsInData_sample hrecords)

/-- With an empty payload at the end of its chunk, the bag cannot be iterated. -/
theorem not_iterates_sample :
    ¬ (sampleBag true).Iterates sampleEnv { bags := [0] } { bags := [sampleOpened true] } := by
  intro h
  have hend := endsInData_of_iterates (decompresses_sampleBag _ true) (openedFrom_sample true)
    (n := 0) rfl rfl h _ List.mem_cons_self
  exact hend _ rfl rfl

end StoredBag

end Embag
