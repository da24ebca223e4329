import Embag.ViewFiles

/-! The messages of an iteration, given by the chunks and nothing else: reading a chunk has one
result, and what is returned for a message is determined by it and by the bag. -/

namespace Embag

theorem ChunkMessages.unique {buffer : Bytes} {size p : ℕ} {ms ms' : List CurrentMessage}
    (h : ChunkMessages buffer size p ms) (h' : ChunkMessages buffer size p ms') : ms = ms' := by
  induction h generalizing ms' with
  | nil hle => exact ((chunkMessages_nil_iff hle).1 h').symm
  | cons hp hscan hheader hop _ ih =>
    obtain ⟨_, _, _, rest, hscan', hheader', -, rfl, hrest⟩ := (chunkMessages_cons_iff hp).1 h'
    rw [hscan] at hscan'
    cases hscan'
    rw [hheader] at hheader'
    cases hheader'
    rw [ih hrest]

theorem Bag.ChunkHolds.unique {bag : Bag} {codecs : Codecs} {p : ℕ} {ms ms' : List CurrentMessage}
    (h : bag.ChunkHolds codecs p ms) (h' : bag.ChunkHolds codecs p ms') : ms = ms' := by
  obtain ⟨chunk, buffer, hchunk, -, hdecompress, hms⟩ := h
  obtain ⟨chunk', buffer', hchunk', -, hdecompress', hms'⟩ := h'
  rw [hchunk] at hchunk'
  cases hchunk'
  rw [hdecompress] at hdecompress'
  cases hdecompress'
  exact hms.unique hms'

theorem Bag.ChunksHold.unique {bag : Bag} {codecs : Codecs} {ps : List ℕ}
    {mss mss' : List (List CurrentMessage)} (h : bag.ChunksHold codecs ps mss)
    (h' : bag.ChunksHold codecs ps mss') : mss = mss' := by
  induction h generalizing mss' with
  | nil =>
    cases h'
    rfl
  | cons hp _ ih =>
    cases h' with
    | cons hp' h' => rw [hp.unique hp', ih h']

def Bag.message (bag : Bag) (c : CurrentMessage) : Option RosMessage :=
  (bag.connections[c.connectionId]?).map fun connection =>
    { topic := connection.topic
      timestamp := c.timestamp
      md5 := connection.data.md5sum
      rawBuffer := c.messageBuffer
      rawBufferOffset := c.messageDataOffset
      rawDataLen := c.messageLen
      msgDef := (bag.schemaOf connection.topic).toOption }

theorem Shows.message {bag : Bag} {c : CurrentMessage} {m : RosMessage} (h : Shows bag c m)
    (hdef : m.msgDef = (bag.schemaOf m.topic).toOption) : bag.message c = some m := by
  obtain ⟨⟨connection, hconnection, htopic, hmd5⟩, htimestamp, hbuffer, hoffset, hlen⟩ := h
  rw [Bag.message, hconnection, Option.map_some, ← htopic, ← hmd5, ← htimestamp, ← hbuffer, ← hoffset,
    ← hlen, ← hdef]

/-- The bags of the world were opened from these files. -/
def World.OpenedFrom (files : List BagFile) (world : World) : Prop :=
  List.Forall₂ BagFile.Opens files world.bags

theorem World.OpenedFrom.schemataSound {files : List BagFile} {world : World}
    (h : world.OpenedFrom files) : world.SchemataSound := by
  intro bag hbag
  obtain ⟨f, -, hf⟩ := Loops.forall₂_mem_right h hbag
  exact hf.schemata

theorem World.OpenedFrom.opens {files : List BagFile} {world : World} (h : world.OpenedFrom files)
    {b : ℕ} {bag : Bag} (hbag : world.bags[b]? = some bag) :
    ∃ f, files[b]? = some f ∧ f.Opens bag := by
  obtain ⟨hb, rfl⟩ := List.getElem?_eq_some_iff.1 hbag
  have hlength : files.length = world.bags.length := List.Forall₂.length_eq h
  have hb' : b < files.length := hlength ▸ hb
  exact ⟨files[b], List.getElem?_eq_getElem hb', (List.forall₂_iff_get.1 h).2 b hb' hb⟩

theorem Bag.file_message (bag : Bag) : bag.file.message = bag.message := rfl

/-- The streams of the messages themselves, when they come with the schemas of their topics. -/
theorem Streams.messages {files : List Bag} {pending : ℕ → List CurrentMessage}
    {streams : ℕ → List RosMessage} {out : List (ℕ × RosMessage)} (h : Streams files pending streams)
    (hrestrict : ∀ b, (out.filter fun x => x.1 = b).map Prod.snd = streams b)
    (hschemas : ∀ x ∈ out, ∃ bag, files[x.1]? = some bag ∧
      x.2.msgDef = (bag.schemaOf x.2.topic).toOption) {b : ℕ} {bag : Bag} (hbag : files[b]? = some bag) :
    List.Forall₂ (fun c m => bag.message c = some m) (pending b)
      ((out.filter fun x => x.1 = b).map Prod.snd) := by
  have hall : ∀ m ∈ streams b, m.msgDef = (bag.schemaOf m.topic).toOption := by
    intro m hm
    rw [← hrestrict, List.mem_map] at hm
    obtain ⟨x, hx, rfl⟩ := hm
    obtain ⟨hx, hxb⟩ := List.mem_filter.1 hx
    obtain ⟨file, hfile, hdef⟩ := hschemas x hx
    rw [decide_eq_true_eq] at hxb
    rw [hxb, hbag] at hfile
    cases hfile
    exact hdef
  have hshows := h b
  rw [hrestrict, List.forall₂_iff_zip]
  rw [List.forall₂_iff_zip] at hshows
  refine ⟨hshows.1, fun {c m} hcm => ?_⟩
  obtain ⟨bag', hbag', hm⟩ := hshows.2 hcm
  rw [hbag] at hbag'
  cases hbag'
  exact hm.message (hall m (List.of_mem_zip hcm).2)

theorem View.Begins.messages {env : Env} {selection : Selection} {view : View} {world : World}
    {st st' : World × Iterator} {out : List (ℕ × RosMessage)} (h : Begins env selection view world st)
    (hbags : ∀ b ∈ view.bags, b < world.bags.length) (hsound : world.SchemataSound)
    (hsteps : Steps env st out st') (hend : st'.2.atEnd) :
    (∀ x ∈ out, x.1 ∈ view.bags) ∧ ∀ b ∈ view.bags, ∃ bag ms, world.bags[b]? = some bag ∧
      FileOrder env.codecs selection b bag ms ∧
      List.Forall₂ (fun c m => bag.message c = some m) ms
        ((out.filter fun x => x.1 = b).map Prod.snd) := by
  obtain ⟨hmerging, hstart⟩ := h.merging hbags
  obtain ⟨pending, streams, hpending, hstreams, hmerge⟩ := hmerging.merge hsteps hend
  obtain ⟨hnone, hfile⟩ := (hstart pending).1 hpending
  have hbagsEq : st.1.bags = world.bags := by
    obtain ⟨order, -, hbegin⟩ := h
    have hbegun := World.begin_bags env order (view.getMessages selection world).1
    rw [hbegin, (wrapped_getMessages _ hbags).bags] at hbegun
    exact hbegun
  have hschemas := hsteps.schemas (fun bag hbag => hsound bag (by rwa [← hbagsEq]))
  rw [files_eq_of_bags hbagsEq] at hschemas
  refine ⟨fun x hx => ?_, fun b hb => ?_⟩
  · by_contra hne
    have hmem := hmerge.mem hx
    have hstream := hstreams x.1
    rw [hnone x.1 hne, List.forall₂_nil_left_iff] at hstream
    rw [hstream] at hmem
    cases hmem
  · have hbag := List.getElem?_eq_getElem (hbags b hb)
    have hfile' := hstreams.messages hmerge.filter_eq hschemas (files_getElem? hbag)
    rw [Bag.file_message] at hfile'
    exact ⟨_, _, hbag, hfile b hb _ hbag, hfile'⟩

end Embag
