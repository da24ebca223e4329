import Embag.ViewContents

/-! Asking for topics yields what filtering all messages by topic does. The chunks that are
left out hold nothing that was asked for, since the INDEX_DATA records say what they hold. -/

namespace Embag

theorem Bag.ChunksHold.filter {bag : Bag} {codecs : Codecs} {keep : ℕ → Bool}
    (interest : CurrentMessage → Bool) {ps : List ℕ} {mss mss' : List (List CurrentMessage)}
    (h : bag.ChunksHold codecs ps mss) (h' : bag.ChunksHold codecs (ps.filter keep) mss')
    (hskip : ∀ p ∈ ps, keep p = false → ∀ ms, bag.ChunkHolds codecs p ms → ms.filter interest = []) :
    mss'.flatten.filter interest = mss.flatten.filter interest := by
  induction h generalizing mss' with
  | nil =>
    cases h'
    rfl
  | @cons p ms ps mss hp _ ih =>
    rw [List.forall_mem_cons] at hskip
    rw [List.flatten_cons, List.filter_append]
    cases hkeep : keep p with
    | true =>
      rw [List.filter_cons_of_pos hkeep] at h'
      cases h' with
      | cons hp' h' => rw [List.flatten_cons, List.filter_append, hp'.unique hp, ih h' hskip.2]
    | false =>
      rw [List.filter_cons_of_neg (by simp [hkeep])] at h'
      rw [hskip.1 hkeep ms hp, List.nil_append, ih h' hskip.2]

namespace BagFile

variable {f : BagFile} {bag : Bag} {codecs : Codecs}

/-- The INDEX_DATA records of a chunk list every connection that has messages in it. -/
def IndexesMessages (f : BagFile) (codecs : Codecs) : Prop :=
  ∀ bag, Bag.ofBytes f.encode = .ok bag → ∀ i x ms, f.infos[i]? = some x →
    bag.ChunkHolds codecs i ms → ∀ m ∈ ms, m.connectionId < f.connections.length →
      ∃ y ∈ f.indexOf x, y.connection = m.connectionId

theorem Opens.indexed (h : f.Opens bag) (hindexed : f.IndexesMessages codecs) {i : ℕ}
    {x : FileChunkInfo} {ms : List CurrentMessage} (hx : f.infos[i]? = some x)
    (hms : bag.ChunkHolds codecs i ms) {m : CurrentMessage} (hm : m ∈ ms)
    (hid : m.connectionId < f.connections.length) :
    ∃ y ∈ f.indexOf x, y.connection = m.connectionId := by
  obtain ⟨opened, hopened, hfile⟩ := h.file
  have hms' : bag.file.ChunkHolds codecs i ms := hms
  rw [hfile] at hms'
  exact hindexed opened hopened i x ms hx hms' m hm hid

/-- The stream of some topics is a part of the stream of all messages. -/
theorem Opens.fileOrder_topics (h : f.Opens bag) (hindexed : f.IndexesMessages codecs) {b : ℕ}
    {topics : List Bytes} {ms ms' : List CurrentMessage} (hms : View.FileOrder codecs .all b bag ms)
    (hms' : View.FileOrder codecs (.topics topics) b bag ms') :
    ms' = ms.filter fun m =>
      m.connectionId ∈ (View.wrapper (.topics topics) b bag).scan.connectionIds := by
  obtain ⟨hordered, mss, hmss, rfl⟩ := hms
  obtain ⟨hordered', mss', hmss', rfl⟩ := hms'
  have hchunks : (View.wrapper (.topics topics) b bag).scan.chunksToParse =
      (View.wrapper .all b bag).scan.chunksToParse.filter
        fun p => p ∈ (View.wrapper (.topics topics) b bag).scan.chunksToParse := by
    refine hordered'.ext (hordered.filter _) fun p => ?_
    simp only [List.mem_filter, decide_eq_true_eq, h.mem_allChunks, iff_and_self]
    intro hp
    obtain ⟨x, hx, -⟩ := h.mem_topicChunks.1 hp
    have hlength : bag.chunks.length = f.infos.length := h.opened.chunks.length_eq.symm
    rw [hlength]
    exact (List.getElem?_eq_some_iff.1 hx).1
  rw [hchunks] at hmss'
  have hflatten := Bag.ChunksHold.filter
    (fun m => m.connectionId ∈ (View.wrapper (.topics topics) b bag).scan.connectionIds) hmss hmss' ?_
  · rw [Scan.wanted, Scan.wanted, hflatten, List.filter_filter]
    refine List.filter_congr fun m _ => ?_
    rw [eq_comm, Bool.and_eq_left_iff_imp]
    simp only [decide_eq_true_eq, h.mem_connectionIds]
    rintro ⟨c, hc, hid, -⟩
    simpa [View.wrapper, View.plainWrapper, h.length_connections, ← hid] using id_lt hc
  · intro p hp hkeep ms hms
    refine List.filter_eq_nil_iff.2 fun m hm hid => ?_
    simp only [decide_eq_true_eq, decide_eq_false_iff_not, h.mem_connectionIds, h.mem_topicChunks]
      at hid hkeep
    obtain ⟨c, hc, hcid, htopic⟩ := hid
    obtain ⟨x, _, hx, -, -⟩ := h.exists_chunk (h.mem_allChunks.1 hp)
    obtain ⟨y, hy, hyid⟩ := h.indexed hindexed hx hms hm (hcid ▸ id_lt hc)
    exact hkeep ⟨x, hx, c, hc, htopic, y, hy, hyid.trans hcid.symm⟩

end BagFile

theorem filter_of_forall₂ {α β : Type} {g : α → Option β} {keep : α → Bool} {keep' : β → Bool}
    {as : List α} {bs bs' : List β} (h : List.Forall₂ (fun a b => g a = some b) as bs)
    (h' : List.Forall₂ (fun a b => g a = some b) (as.filter keep) bs')
    (hkeep : ∀ a b, g a = some b → keep a = keep' b) : bs' = bs.filter keep' := by
  induction h generalizing bs' with
  | nil =>
    cases h'
    rfl
  | @cons a b as bs hab _ ih =>
    rw [List.filter_cons, hkeep a b hab] at h'
    rw [List.filter_cons]
    split_ifs at h' ⊢
    · cases h' with
      | cons hab' h' =>
        rw [hab] at hab'
        cases hab'
        rw [ih h']
    · exact ih h'

theorem BagFile.Opens.keep_eq {f : BagFile} {bag : Bag} (h : f.Opens bag) {b : ℕ}
    {topics : List Bytes} {c : CurrentMessage} {m : RosMessage} (hm : bag.message c = some m) :
    c.connectionId ∈ (View.wrapper (.topics topics) b bag).scan.connectionIds ↔ m.topic ∈ topics := by
  rw [Bag.message, Option.map_eq_some_iff] at hm
  obtain ⟨r, hr, rfl⟩ := hm
  obtain ⟨d, hd, hid, rfl⟩ := h.exists_connection hr
  rw [h.mem_connectionIds]
  constructor
  · rintro ⟨d', hd', hid', htopic⟩
    cases BagFile.eq_of_id hd hd' (hid.trans hid'.symm)
    exact htopic
  · intro htopic
    exact ⟨d, hd, hid, htopic⟩

theorem World.OpenedFrom.topics_filter {files : List BagFile} {env : Env} {view : View}
    {topics : List Bytes} {world world' : World} {st₁ st₁' st₂ st₂' : World × Iterator}
    {out₁ out₂ : List (ℕ × RosMessage)} (hfiles : world.OpenedFrom files)
    (hfiles' : world'.OpenedFrom files) (hbags : ∀ b ∈ view.bags, b < files.length)
    (hindexed : ∀ f ∈ files, f.IndexesMessages env.codecs)
    (hall : View.Begins env .all view world st₁) (hsteps₁ : Steps env st₁ out₁ st₁')
    (hend₁ : st₁'.2.atEnd) (htopics : View.Begins env (.topics topics) view world' st₂)
    (hsteps₂ : Steps env st₂ out₂ st₂') (hend₂ : st₂'.2.atEnd) :
    (∀ b ∈ view.bags, (out₂.filter fun x => x.1 = b).map Prod.snd =
        ((out₁.filter fun x => x.1 = b).map Prod.snd).filter fun m => m.topic ∈ topics) ∧
      ∀ b, view.bags = [b] →
        out₂.map Prod.snd = (out₁.map Prod.snd).filter fun m => m.topic ∈ topics := by
  have hlength : files.length = world.bags.length := List.Forall₂.length_eq hfiles
  have hlength' : files.length = world'.bags.length := List.Forall₂.length_eq hfiles'
  obtain ⟨hmem₁, hstreams₁⟩ := hall.messages (fun b hb => hlength ▸ hbags b hb)
    hfiles.schemataSound hsteps₁ hend₁
  obtain ⟨hmem₂, hstreams₂⟩ := htopics.messages (fun b hb => hlength' ▸ hbags b hb)
    hfiles'.schemataSound hsteps₂ hend₂
  have heach : ∀ b ∈ view.bags, (out₂.filter fun x => x.1 = b).map Prod.snd =
      ((out₁.filter fun x => x.1 = b).map Prod.snd).filter fun m => m.topic ∈ topics := by
    intro b hb
    obtain ⟨bag, ms, hbag, hms, hshown⟩ := hstreams₁ b hb
    obtain ⟨bag', ms', hbag', hms', hshown'⟩ := hstreams₂ b hb
    obtain ⟨f, hf, hopens⟩ := hfiles.opens hbag
    obtain ⟨f', hf', hopens'⟩ := hfiles'.opens hbag'
    rw [hf] at hf'
    cases hf'
    -- the bags have the same file, whatever their caches hold
    have hfile : bag'.file = bag.file := by
      obtain ⟨opened, hopened, heq⟩ := hopens.file
      obtain ⟨opened', hopened', heq'⟩ := hopens'.file
      rw [hopened] at hopened'
      cases hopened'
      rw [heq', heq]
    have hmessage : bag'.message = bag.message := by
      have hsame : bag'.file.message = bag.file.message := by rw [hfile]
      exact hsame
    rw [← View.fileOrder_file, hfile, View.fileOrder_file] at hms'
    rw [hmessage, hopens.fileOrder_topics (hindexed f (List.mem_of_getElem? hf)) hms hms'] at hshown'
    refine filter_of_forall₂ hshown hshown' fun c m hm => ?_
    rw [Bool.eq_iff_iff, decide_eq_true_eq, decide_eq_true_eq]
    exact hopens.keep_eq hm
  refine ⟨heach, fun b hb => ?_⟩
  have hone : ∀ out : List (ℕ × RosMessage), (∀ x ∈ out, x.1 ∈ view.bags) →
      (out.filter fun x => x.1 = b) = out := by
    intro out hout
    rw [List.filter_eq_self]
    intro x hx
    simpa [hb] using hout x hx
  have heq := heach b (by simp [hb])
  rwa [hone _ hmem₁, hone _ hmem₂] at heq

namespace StoredBag

variable {b : StoredBag}

/-- The INDEX_DATA records of a chunk list the connection of every message in it. -/
def Indexed (b : StoredBag) : Prop :=
  ∀ x ∈ b.infos, ∀ records, b.contents[x.chunk]? = some records →
    ∀ r, .message r ∈ records → ∃ y ∈ b.indexOf x, y.connection = r.connection

theorem Indexed.indexesMessages (h : b.Indexed) (hend : ∀ records ∈ b.contents, ChunkRecord.EndsInData records)
    (hcodecs : b.Decompresses codecs) : b.IndexesMessages codecs := by
  intro bag hbag i x ms hx hms m hm _
  obtain ⟨records, hcontents, hread⟩ :=
    forall₂_isRead_of_chunkHolds (BagFile.opens_of_ofBytes hbag) hcodecs hend hx hms
  obtain ⟨r, hr, hrm⟩ := Loops.forall₂_mem_right hread hm
  obtain ⟨record, hrecord, hmessage⟩ := List.mem_filterMap.1 hr
  cases record with
  | connection id record => cases hmessage
  | message r' =>
    cases hmessage
    obtain ⟨y, hy, hconnection⟩ := h x (List.mem_of_getElem? hx) _ hcontents r hrecord
    exact ⟨y, hy, hconnection.trans hrm.connectionId.symm⟩

theorem indexed_pairBag : pairBag.Indexed := by
  intro x hx records hrecords r hr
  rcases List.mem_pair.1 hx with rfl | rfl
  · cases hrecords
    rcases List.mem_pair.1 hr with hr | hr
    · cases hr
      exact ⟨_, List.mem_cons_self, rfl⟩
    · cases hr
      exact ⟨_, List.mem_cons_of_mem _ List.mem_cons_self, rfl⟩
  · cases hrecords
    cases List.mem_singleton.1 hr
    exact ⟨_, List.mem_cons_self, rfl⟩

end StoredBag

/-- Of two messages in the first chunk one is left, and the second chunk is passed over. -/
theorem topics_filter_sample : ∃ out out' : List (ℕ × RosMessage), out.length = 3 ∧ out'.length = 1 ∧
    out'.map Prod.snd = (out.map Prod.snd).filter fun m => m.topic ∈ [bytes "/a"] := by
  have hall : (View.messages sampleEnv .all 4 { bags := [0] } { bags := [pairBag.bag] }).map List.length =
      some 3 := by decide +kernel
  have htopics : (View.messages sampleEnv (.topics [bytes "/a"]) 4 { bags := [0] }
      { bags := [pairBag.bag] }).map List.length = some 1 := by decide +kernel
  obtain ⟨out, hout, hlength⟩ := Option.map_eq_some_iff.1 hall
  obtain ⟨out', hout', hlength'⟩ := Option.map_eq_some_iff.1 htopics
  obtain ⟨st₁, st₁', hbegin₁, hsteps₁, hend₁⟩ := View.exists_of_messages hout
  obtain ⟨st₂, st₂', hbegin₂, hsteps₂, hend₂⟩ := View.exists_of_messages hout'
  have hopened : World.OpenedFrom [pairBag.toBagFile] { bags := [pairBag.bag] } := .cons pairBag.opens_bag .nil
  have hindexed := StoredBag.indexed_pairBag.indexesMessages StoredBag.endsInData_pairBag
    (decompresses_pairBag sampleEnv.codecs)
  have hfilter := World.OpenedFrom.topics_filter hopened hopened (by simp)
    (fun f hf => by cases List.mem_singleton.1 hf; exact hindexed)
    hbegin₁ hsteps₁ hend₁ hbegin₂ hsteps₂ hend₂
  exact ⟨out, out', hlength, hlength', hfilter.2 0 rfl⟩

end Embag
