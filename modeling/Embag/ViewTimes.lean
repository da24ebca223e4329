import Embag.ViewSessions

/-! The first and the last time of a view. Only the first and the last chunk of a bag are looked
at, in the order of the CHUNK_INFO records, which need not be that of the times. -/

namespace Embag

open Loops

/-- The least of some times in an order, or its limit where there are none. -/
def IsExtreme (le : TimeValue → TimeValue → Prop) (limit t : TimeValue) (times : List TimeValue) : Prop :=
  (∀ u ∈ times, le t u) ∧ (t ∈ times ∨ times = [] ∧ t = limit)

def IsFirst : TimeValue → List TimeValue → Prop :=
  IsExtreme (fun t u => t.key ≤ u.key) ⟨4294967295, 4294967295⟩

def IsLast : TimeValue → List TimeValue → Prop := IsExtreme (fun t u => u.key ≤ t.key) ⟨0, 0⟩

/-- What a loop that keeps the lesser of two times relies on. -/
structure Extremum (le : TimeValue → TimeValue → Prop) (join : TimeValue → TimeValue → TimeValue)
    (limit : TimeValue) : Prop where
  refl : ∀ t, le t t
  trans : ∀ t u v, le t u → le u v → le t v
  antisymm : ∀ t u, le t u → le u t → t = u
  limit : ∀ t, le t limit
  join_left : ∀ t u, le (join t u) t
  join_right : ∀ t u, le (join t u) u
  join_eq : ∀ t u, join t u = t ∨ join t u = u

theorem TimeValue.key_injective {t u : TimeValue} (h : t.key = u.key) : t = u := by
  simp only [key, EmbeddingLike.apply_eq_iff_eq, Prod.mk.injEq, UInt32.toNat_inj] at h
  cases t
  cases u
  rw [TimeValue.mk.injEq]
  exact h

theorem TimeValue.key_le_iff {t u : TimeValue} :
    t.key ≤ u.key ↔ t.secs.toNat < u.secs.toNat ∨ t.secs.toNat = u.secs.toNat ∧ t.nsecs.toNat ≤ u.nsecs.toNat :=
  Prod.Lex.toLex_le_toLex

theorem extremum_earlier :
    Extremum (fun t u => t.key ≤ u.key) View.earlier ⟨4294967295, 4294967295⟩ where
  refl _ := le_rfl
  trans _ _ _ := le_trans
  antisymm _ _ h h' := TimeValue.key_injective (le_antisymm h h')
  limit t := by
    have hsecs := t.secs.toNat_lt
    have hnsecs := t.nsecs.toNat_lt
    rw [TimeValue.key_le_iff]
    simp only [UInt32.reduceToNat]
    omega
  join_left t u := by
    simp only [View.earlier, UInt32.lt_iff_toNat_lt, ← UInt32.toNat_inj]
    split_ifs <;> rw [TimeValue.key_le_iff] <;> omega
  join_right t u := by
    simp only [View.earlier, UInt32.lt_iff_toNat_lt, ← UInt32.toNat_inj]
    split_ifs <;> rw [TimeValue.key_le_iff] <;> omega
  join_eq t u := by
    unfold View.earlier
    split_ifs
    · exact .inr rfl
    · exact .inr rfl
    · exact .inl rfl

theorem extremum_later : Extremum (fun t u => u.key ≤ t.key) View.later ⟨0, 0⟩ where
  refl _ := le_rfl
  trans _ _ _ h h' := le_trans h' h
  antisymm _ _ h h' := TimeValue.key_injective (le_antisymm h' h)
  limit t := by
    rw [TimeValue.key_le_iff]
    simp only [UInt32.toNat_zero]
    omega
  join_left t u := by
    simp only [View.later, gt_iff_lt, UInt32.lt_iff_toNat_lt, ← UInt32.toNat_inj]
    split_ifs <;> rw [TimeValue.key_le_iff] <;> omega
  join_right t u := by
    simp only [View.later, gt_iff_lt, UInt32.lt_iff_toNat_lt, ← UInt32.toNat_inj]
    split_ifs <;> rw [TimeValue.key_le_iff] <;> omega
  join_eq t u := by
    unfold View.later
    split_ifs
    · exact .inr rfl
    · exact .inr rfl
    · exact .inl rfl

namespace Extremum

variable {le : TimeValue → TimeValue → Prop} {join : TimeValue → TimeValue → TimeValue} {limit : TimeValue}

theorem foldl (h : Extremum le join limit) (us : List TimeValue) (t : TimeValue) :
    le (us.foldl join t) t ∧ (∀ u ∈ us, le (us.foldl join t) u) ∧
      (us.foldl join t = t ∨ us.foldl join t ∈ us) := by
  induction us generalizing t with
  | nil => exact ⟨h.refl t, by simp, .inl rfl⟩
  | cons u us ih =>
    obtain ⟨hstart, hall, hmem⟩ := ih (join t u)
    rw [List.foldl_cons]
    refine ⟨h.trans _ _ _ hstart (h.join_left t u), ?_, ?_⟩
    · rw [List.forall_mem_cons]
      exact ⟨h.trans _ _ _ hstart (h.join_right t u), hall⟩
    · rcases hmem with heq | hmem
      · rw [heq]
        refine (h.join_eq t u).imp_right fun hjoin => ?_
        rw [hjoin]
        exact List.mem_cons_self
      · exact .inr (List.mem_cons_of_mem _ hmem)

/-- The least of some of the times is that of all of them if none is before those. -/
theorem isExtreme_iff (h : Extremum le join limit) {us times : List TimeValue} (hsub : us ⊆ times)
    (hempty : us = [] → times = []) :
    IsExtreme le limit (us.foldl join limit) times ↔ ∀ t ∈ times, ∃ u ∈ us, le u t := by
  obtain ⟨-, hall, hmem⟩ := h.foldl us limit
  constructor
  · intro hextreme t ht
    rcases hmem with hlimit | hmem
    · have hne : us ≠ [] := fun hnil => by
        rw [hempty hnil] at ht
        cases ht
      obtain ⟨u, hu⟩ := List.exists_mem_of_ne_nil us hne
      have hle := hextreme.1 t ht
      rw [hlimit] at hle
      exact ⟨u, hu, h.trans _ _ _ (h.limit u) hle⟩
    · exact ⟨_, hmem, hextreme.1 t ht⟩
  · intro hbelow
    refine ⟨fun t ht => ?_, ?_⟩
    · obtain ⟨u, hu, hle⟩ := hbelow t ht
      exact h.trans _ _ _ (hall u hu) hle
    · rcases hmem with hlimit | hmem
      · rcases List.eq_nil_or_concat us with hnil | ⟨us', u, hus⟩
        · exact .inr ⟨hempty hnil, hlimit⟩
        · have hu : u ∈ us := by rw [hus]; simp
          have heq := h.antisymm _ _ (h.limit u) (hlimit ▸ hall u hu)
          rw [hlimit, ← heq]
          exact .inl (hsub hu)
      · exact .inl (hsub hmem)

end Extremum

namespace View

def picked (world : World) (pick : List Chunk → Option Chunk) (b : ℕ) : Option Chunk :=
  (world.bags[b]?).bind fun bag => pick bag.chunks

def times (view : View) (world : World) (time : Chunk → TimeValue) : List TimeValue :=
  view.bags.flatMap fun b => ((world.bags[b]?).elim [] Bag.chunks).map time

/-- Every bag has a chunk, and no chunk's time is before all of those that are looked at. -/
def PickedBefore (view : View) (world : World) (pick : List Chunk → Option Chunk)
    (le : TimeValue → TimeValue → Prop) (time : Chunk → TimeValue) : Prop :=
  (∀ b ∈ view.bags, ∃ chunk, picked world pick b = some chunk) ∧
    ∀ t ∈ view.times world time, ∃ b ∈ view.bags, ∃ chunk, picked world pick b = some chunk ∧
      le (time chunk) t

section Picked

variable {view : View} {world : World} {pick : List Chunk → Option Chunk} {time : Chunk → TimeValue}
  {le : TimeValue → TimeValue → Prop} {join : TimeValue → TimeValue → TimeValue} {limit : TimeValue}

theorem timeOverBags_of_picked (h : ∀ b ∈ view.bags, ∃ chunk, picked world pick b = some chunk)
    (t : TimeValue) :
    view.timeOverBags world pick (fun t chunk => join t (time chunk)) t =
      .ok (((view.bags.filterMap (picked world pick)).map time).foldl join t) := by
  unfold timeOverBags
  generalize view.bags = bags at h
  induction bags generalizing t with
  | nil => rfl
  | cons b bags ih =>
    rw [List.forall_mem_cons] at h
    obtain ⟨⟨chunk, hchunk⟩, hrest⟩ := h
    rw [List.foldlM_cons, List.filterMap_cons_some hchunk, List.map_cons, List.foldl_cons,
      ← ih _ hrest]
    rw [picked] at hchunk
    rw [hchunk]
    rfl

theorem timeOverBags_of_notPicked {b : ℕ} (hb : b ∈ view.bags) (h : picked world pick b = none)
    (turn : TimeValue → Chunk → TimeValue) (t : TimeValue) :
    view.timeOverBags world pick turn t = .error .undefined := by
  unfold timeOverBags
  generalize view.bags = bags at hb
  induction bags generalizing t with
  | nil => cases hb
  | cons b' bags ih =>
    rw [List.foldlM_cons]
    rcases hchunk : (world.bags[b']?).bind fun bag => pick bag.chunks with _ | chunk
    · rfl
    · rw [ok_bind]
      apply ih
      rcases List.mem_cons.1 hb with rfl | hmem
      · rw [picked, hchunk] at h
        cases h
      · exact hmem

theorem timeOverBags_iff (h : Extremum le join limit) (hpick : ∀ chunks c, pick chunks = some c → c ∈ chunks) :
    (∃ t, view.timeOverBags world pick (fun t chunk => join t (time chunk)) limit = .ok t ∧
        IsExtreme le limit t (view.times world time)) ↔
      view.PickedBefore world pick le time := by
  by_cases hall : ∀ b ∈ view.bags, ∃ chunk, picked world pick b = some chunk
  swap
  · push Not at hall
    obtain ⟨b, hb, hnone⟩ := hall
    have hnone' := Option.eq_none_iff_forall_ne_some.2 hnone
    rw [timeOverBags_of_notPicked hb hnone']
    refine iff_of_false ?_ fun h => ?_
    · rintro ⟨t, ht, -⟩
      cases ht
    · obtain ⟨chunk, hchunk⟩ := h.1 b hb
      exact hnone chunk hchunk
  rw [timeOverBags_of_picked hall]
  have hmem : ∀ t, t ∈ (view.bags.filterMap (picked world pick)).map time ↔
      ∃ b ∈ view.bags, ∃ chunk, picked world pick b = some chunk ∧ time chunk = t := by
    intro t
    simp only [List.mem_map, List.mem_filterMap]
    constructor
    · rintro ⟨chunk, ⟨b, hb, hchunk⟩, ht⟩
      exact ⟨b, hb, chunk, hchunk, ht⟩
    · rintro ⟨b, hb, chunk, hchunk, ht⟩
      exact ⟨chunk, ⟨b, hb, hchunk⟩, ht⟩
  have hsub : (view.bags.filterMap (picked world pick)).map time ⊆ view.times world time := by
    intro t ht
    obtain ⟨b, hb, chunk, hchunk, rfl⟩ := (hmem t).1 ht
    obtain ⟨bag, hbag, hpicked⟩ := Option.bind_eq_some_iff.1 hchunk
    refine List.mem_flatMap.2 ⟨b, hb, List.mem_map.2 ⟨chunk, ?_, rfl⟩⟩
    rw [hbag]
    exact hpick _ _ hpicked
  have hempty : (view.bags.filterMap (picked world pick)).map time = [] → view.times world time = [] := by
    intro hnil
    rcases hbags : view.bags with _ | ⟨b, bags⟩
    · rw [times, hbags]
      rfl
    · have hb : b ∈ view.bags := by rw [hbags]; exact List.mem_cons_self
      obtain ⟨chunk, hchunk⟩ := hall b hb
      have hne := (hmem (time chunk)).2 ⟨b, hb, chunk, hchunk, rfl⟩
      rw [hnil] at hne
      cases hne
  have hiff := h.isExtreme_iff hsub hempty
  constructor
  · rintro ⟨t, ht, hextreme⟩
    cases ht
    refine ⟨hall, fun t ht => ?_⟩
    obtain ⟨u, hu, hle⟩ := hiff.1 hextreme t ht
    obtain ⟨b, hb, chunk, hchunk, rfl⟩ := (hmem u).1 hu
    exact ⟨b, hb, chunk, hchunk, hle⟩
  · rintro ⟨-, hbelow⟩
    refine ⟨_, rfl, hiff.2 fun t ht => ?_⟩
    obtain ⟨b, hb, chunk, hchunk, hle⟩ := hbelow t ht
    exact ⟨_, (hmem _).2 ⟨b, hb, chunk, hchunk, rfl⟩, hle⟩

end Picked

end View

inductive RecordStart (buffer : Bytes) : ℕ → Prop
  | front : RecordStart buffer 0
  | next {p p' : ℕ} {record : Record} (h : RecordStart buffer p)
    (hscan : scanRecord buffer p = (p', .ok record)) : RecordStart buffer p'

def Chunk.Spans (chunk : Chunk) (t : TimeValue) : Prop :=
  chunk.info.startTime.key ≤ t.key ∧ t.key ≤ chunk.info.endTime.key

/-- The CHUNK_INFO records of the bag are correct about the times of the messages. -/
def Bag.TimesCorrect (bag : Bag) (codecs : Codecs) : Prop :=
  ∀ chunk ∈ bag.chunks, ∀ buffer, chunk.decompress codecs bag.bagBytes = (buffer, .ok ()) →
    ∀ p p' record header, RecordStart buffer p → scanRecord buffer p = (p', .ok record) →
      readMessageHeader buffer record = .ok header → header.op = 2 → chunk.Spans header.timestamp

/-- The scan is between two chunks, or in front of a record of one. -/
def Scan.InChunk (bag : Bag) (codecs : Codecs) (s : Scan) : Prop :=
  match s.currentBuffer with
  | none => s.processedBytes = 0
  | some buffer => ∃ chunk ∈ bag.chunks, chunk.decompress codecs bag.bagBytes = (buffer, .ok ()) ∧
    RecordStart buffer s.processedBytes

/-- What a result that is no fault leaves of a scan and says of a message. -/
def Scan.Found (bag : Bag) (codecs : Codecs) (s : Scan) : Except Fault (Option CurrentMessage) → Prop
  | .error _ => True
  | .ok none => s.InChunk bag codecs
  | .ok (some m) => s.InChunk bag codecs ∧ ∃ chunk ∈ bag.chunks, chunk.Spans m.timestamp

section Scan

variable {bag : Bag} {codecs : Codecs} {s s' : Scan} {buffer : Bytes}

theorem Scan.readRecord_inChunk (htimes : bag.TimesCorrect codecs) (h : s.InChunk bag codecs)
    (hbuffer : s.currentBuffer = some buffer) {r : Option (Except Fault (Option CurrentMessage))}
    (hread : s.readRecord buffer = (s', r)) :
    r.elim (s'.InChunk bag codecs) (s'.Found bag codecs) := by
  rw [InChunk, hbuffer] at h
  obtain ⟨chunk, hchunk, hdecompress, hstart⟩ := h
  rw [readRecord] at hread
  rcases hscan : scanRecord buffer s.processedBytes with ⟨p', e | record⟩
  · simp only [hscan, Prod.mk.injEq] at hread
    rw [← hread.2]
    trivial
  simp only [hscan] at hread
  have hnext : Scan.InChunk bag codecs { s with processedBytes := p' } := by
    rw [InChunk, hbuffer]
    exact ⟨chunk, hchunk, hdecompress, hstart.next hscan⟩
  rcases hheader : readMessageHeader buffer record with e | header
  · simp only [hheader, Prod.mk.injEq] at hread
    rw [← hread.2]
    trivial
  simp only [hheader] at hread
  split_ifs at hread with hop hid hop'
  all_goals
    rw [Prod.mk.injEq] at hread
    obtain ⟨rfl, rfl⟩ := hread
  · exact ⟨hnext, chunk, hchunk, htimes chunk hchunk buffer hdecompress _ _ _ _ hstart hscan hheader hop⟩
  · exact hnext
  · exact hnext
  · trivial

theorem Scan.turn_inChunk (htimes : bag.TimesCorrect codecs) (h : s.InChunk bag codecs)
    {r : Option (Except Fault (Option CurrentMessage))} (hturn : turn bag codecs s = (s', r)) :
    r.elim (s'.InChunk bag codecs) (s'.Found bag codecs) := by
  rcases turn_cases hturn with ⟨-, rfl, rfl⟩ | ⟨p, -, ⟨hnone, ⟨⟨e, rfl⟩, -⟩ | ⟨chunk, buffer, hchunk, -,
    hdecompress, rfl, rfl⟩⟩ | ⟨buffer, hbuffer, ⟨-, hread⟩ | ⟨-, rfl, rfl⟩⟩⟩
  · exact h
  · trivial
  · rw [InChunk, hnone] at h
    refine ⟨chunk, List.mem_of_getElem? hchunk, hdecompress, ?_⟩
    simp only [h]
    exact .front
  · exact readRecord_inChunk htimes h hbuffer hread
  · rfl

theorem Scan.readMessage_inChunk (htimes : bag.TimesCorrect codecs) (h : s.InChunk bag codecs)
    {r : Except Fault (Option CurrentMessage)} (hread : s.readMessage bag codecs = (s', r)) :
    s'.Found bag codecs r :=
  iterate_rule (I := InChunk bag codecs) (Q := fun _ s' r => s'.Found bag codecs r)
    (fun h hturn => turn_inChunk htimes h hturn)
    (fun h hturn => ⟨turn_inChunk htimes h hturn, fun _ _ hfound => hfound⟩) h (readMessage_eq hread)

end Scan

/-- The wrappers of a view over some bags, with the messages of those that are queued. -/
structure World.Timed (codecs : Codecs) (files : List Bag) (bs order queue : List ℕ) (world : World) :
    Prop where
  files_eq : world.files = files
  wrapper : ∀ p ∈ order, ∃ w file, world.wrappers[p]? = some w ∧ w.scan.bag ∈ bs ∧
    files[w.scan.bag]? = some file ∧ w.scan.InChunk file codecs ∧
    (p ∈ queue → ∃ chunk ∈ file.chunks, chunk.Spans w.current.timestamp)
  queue : ∀ p ∈ queue, p ∈ order

section World

variable {env : Env} {files : List Bag} {bs order queue : List ℕ} {world world' : World} {p : ℕ}

theorem World.Timed.resetIter (h : world.Timed env.codecs files bs order queue) (p : ℕ) :
    (world.resetIter p).Timed env.codecs files bs order queue where
  files_eq := h.files_eq
  wrapper q hq := by
    obtain ⟨w, file, hw, hbag, hfile, hscan, hcurrent⟩ := h.wrapper q hq
    rw [resetIter_wrappers, hw]
    split_ifs
    · exact ⟨_, file, rfl, hbag, hfile, hscan, hcurrent⟩
    · exact ⟨w, file, rfl, hbag, hfile, hscan, hcurrent⟩
  queue := h.queue

theorem World.Timed.readMessage (h : world.Timed env.codecs files bs order queue)
    (htimes : ∀ b ∈ bs, ∀ file, files[b]? = some file → file.TimesCorrect env.codecs) (hp : p ∈ order)
    {queue₁ queue' : List ℕ} (hsub : queue₁ ⊆ queue)
    (hread : world.readMessage env p queue₁ = (world', .ok queue')) :
    world'.Timed env.codecs files bs order queue' := by
  obtain ⟨w, file, hw, hb, hfile, hscan, hcurrent⟩ := h.wrapper p hp
  obtain ⟨w', bag, scan, hw', hbag, hbags, hresult⟩ := readMessage_ok hread
  rw [hw] at hw'
  cases hw'
  have hfile' := files_getElem? hbag
  rw [h.files_eq, hfile] at hfile'
  cases hfile'
  have hplace := (List.getElem?_eq_some_iff.1 hw).1
  have hmem : ∀ q ∈ queue', q = p ∨ q ∈ queue₁ := fun q hq =>
    mem_of_readMessage (by rw [hread]) hq
  have hset : ∀ w', world'.wrappers = world.wrappers.set p w' → w'.scan.bag = w.scan.bag →
      w'.scan.InChunk bag.file env.codecs →
      (p ∈ queue' → ∃ chunk ∈ bag.file.chunks, chunk.Spans w'.current.timestamp) →
      world'.Timed env.codecs files bs order queue' := by
    intro w' hwrappers hsame hinside hspans
    refine ⟨(files_eq_of_bags hbags).trans h.files_eq, fun q hq => ?_, fun q hq => ?_⟩
    · rw [hwrappers, List.getElem?_set]
      split_ifs with heq
      · subst heq
        exact ⟨w', bag.file, rfl, hsame ▸ hb, hsame ▸ hfile, hinside, hspans⟩
      · obtain ⟨v, file', hv, hvb, hvfile, hvscan, hvcurrent⟩ := h.wrapper q hq
        refine ⟨v, file', hv, hvb, hvfile, hvscan, fun hq' => hvcurrent ?_⟩
        exact hsub ((hmem q hq').resolve_left (Ne.symm heq))
    · exact (hmem q hq).elim (fun heq => heq ▸ hp) fun hq' => h.queue q (hsub hq')
  have hfound : ∀ r, w.scan.readMessage bag env.codecs = (scan, r) → scan.Found bag.file env.codecs r := by
    intro r hr
    rw [← readMessage_file] at hr
    exact Scan.readMessage_inChunk (htimes _ hb _ hfile) hscan hr
  rcases hresult with ⟨hnone, hwrappers, rfl⟩ | ⟨current, hsome, hwrappers, rfl⟩
  · have hcontinues := Scan.continues_of_readMessage hnone
    exact hset _ hwrappers hcontinues.bag (hfound _ hnone) fun hq => hcurrent (hsub hq)
  · have hcontinues := Scan.continues_of_readMessage hsome
    exact hset _ hwrappers hcontinues.bag (hfound _ hsome).1 fun _ => (hfound _ hsome).2

theorem World.Timed.beginLoop {ps queue' : List ℕ} (h : world.Timed env.codecs files bs order queue)
    (htimes : ∀ b ∈ bs, ∀ file, files[b]? = some file → file.TimesCorrect env.codecs) (hps : ps ⊆ order)
    (hloop : world.beginLoop env ps queue = (world', .ok queue')) :
    world'.Timed env.codecs files bs order queue' := by
  induction ps generalizing world queue with
  | nil =>
    cases hloop
    exact h
  | cons p ps ih =>
    rw [List.cons_subset] at hps
    obtain ⟨world₁, queue₁, hread, hrest⟩ := beginLoop_cons_ok hloop
    have hnext := (h.resetIter p).readMessage htimes hps.1 (List.Subset.refl queue) hread
    exact ih hnext hps.2 hrest

theorem World.Timed.steps {st st' : World × Iterator} {out : List (ℕ × RosMessage)}
    (hsteps : Steps env st out st') (h : st.1.Timed env.codecs files bs order st.2.msgQueue)
    (htimes : ∀ b ∈ bs, ∀ file, files[b]? = some file → file.TimesCorrect env.codecs) :
    ∀ x ∈ out, ∃ b ∈ bs, ∃ file, files[b]? = some file ∧
      ∃ chunk ∈ file.chunks, chunk.Spans x.2.timestamp := by
  induction hsteps with
  | refl => simp
  | @step world world' it m st st' out hderef hadvance _ ih =>
    obtain ⟨p, queue, w, bag, bag', hqueue, hw, hbag, hshows, hdef, hworld⟩ := Iterator.deref_ok hderef
    obtain ⟨p', queue', hqueue', hread⟩ := Iterator.advance_ok hadvance
    have hfiles : world'.files = world.files := by
      rw [hworld]
      exact files_set hbag (Bag.file_of_msgDefForTopic hdef)
    have hafter : world'.Timed env.codecs files bs order it.msgQueue := by
      refine ⟨hfiles.trans h.files_eq, fun q hq => ?_, h.queue⟩
      rw [show world'.wrappers = world.wrappers by rw [hworld]]
      exact h.wrapper q hq
    have hfront : p' ∈ it.msgQueue := by
      rw [hqueue']
      exact List.mem_cons_self
    have hpop : env.heap.pop world'.compare (p' :: queue') ⊆ it.msgQueue := by
      rw [hqueue']
      exact fun q hq => List.mem_cons_of_mem _ ((env.heap.pop_perm _ _ _).subset hq)
    rw [List.forall_mem_cons]
    refine ⟨?_, ih (hafter.readMessage htimes (hafter.queue p' hfront) hpop hread)⟩
    have hp : p ∈ it.msgQueue := by
      rw [hqueue]
      exact List.mem_cons_self
    obtain ⟨w', file, hw', hb, hfile, -, hcurrent⟩ := h.wrapper p (h.queue p hp)
    rw [hw] at hw'
    cases hw'
    rw [hshows.timestamp]
    exact ⟨_, hb, file, hfile, hcurrent hp⟩

end World

namespace View

variable {env : Env} {selection : Selection} {view : View} {world : World}

theorem timed_getMessages (env : Env) (selection : Selection) (hbags : ∀ b ∈ view.bags, b < world.bags.length) :
    (view.getMessages selection world).1.Timed env.codecs world.files view.bags
      (view.getMessages selection world).2.wrappers [] where
  files_eq := files_eq_of_bags (wrapped_getMessages selection hbags).bags
  wrapper p hp := by
    have hwrapped := wrapped_getMessages selection hbags
    obtain ⟨b, hb⟩ := mem_wrappers.1 hp
    obtain ⟨bag, hbag, hw⟩ := hwrapped.wrapper hb
    obtain ⟨hscan, hbuffer, hbytes, -⟩ := wrapper_front selection b bag
    have hmem : b ∈ view.bags := by
      rw [← hwrapped.mem]
      exact AList.lookup_isSome.1 (by rw [hb]; rfl)
    refine ⟨_, bag.file, hw, by rwa [hscan], by rw [hscan]; exact files_getElem? hbag, ?_, by simp⟩
    rw [Scan.InChunk, hbuffer]
    exact hbytes
  queue := by simp

/-- Every message of a loop over new iterators is of a time that a chunk of the view spans. -/
theorem Begins.spans (hbags : ∀ b ∈ view.bags, b < world.bags.length)
    (htimes : ∀ b ∈ view.bags, ∀ bag, world.bags[b]? = some bag → bag.TimesCorrect env.codecs)
    {st st' : World × Iterator} {out : List (ℕ × RosMessage)} (hbegins : Begins env selection view world st)
    (hsteps : Steps env st out st') {x : ℕ × RosMessage} (hx : x ∈ out) :
    ∃ b ∈ view.bags, ∃ bag, world.bags[b]? = some bag ∧ ∃ chunk ∈ bag.chunks, chunk.Spans x.2.timestamp := by
  obtain ⟨order, horder, hbegin⟩ := hbegins
  have hfiles : ∀ b ∈ view.bags, ∀ file, world.files[b]? = some file → file.TimesCorrect env.codecs := by
    intro b hb file hfile
    obtain ⟨bag, hbag, rfl⟩ := exists_bag_of_files rfl hfile
    exact htimes b hb bag hbag
  have hstart := (timed_getMessages env selection hbags).beginLoop hfiles horder.subset
    (World.begin_ok hbegin)
  obtain ⟨b, hb, file, hfile, hspans⟩ := World.Timed.steps hsteps hstart hfiles x hx
  obtain ⟨bag, hbag, rfl⟩ := exists_bag_of_files rfl hfile
  exact ⟨b, hb, bag, hbag, hspans⟩

/-- Both times are those of all chunks of all bags, and every message is between them where the
CHUNK_INFO records are correct. -/
structure TimesBound (env : Env) (view : View) (world : World) : Prop where
  startTime : ∃ t, view.getStartTime world = .ok t ∧
    IsFirst t (view.times world fun chunk => chunk.info.startTime)
  endTime : ∃ t, view.getEndTime world = .ok t ∧ IsLast t (view.times world fun chunk => chunk.info.endTime)
  messages : (∀ b ∈ view.bags, ∀ bag, world.bags[b]? = some bag → bag.TimesCorrect env.codecs) →
    ∀ selection st out st', Begins env selection view world st → Steps env st out st' → ∀ x ∈ out,
      ∃ t t', view.getStartTime world = .ok t ∧ view.getEndTime world = .ok t' ∧
        t.key ≤ x.2.timestamp.key ∧ x.2.timestamp.key ≤ t'.key

/-- Every bag has a chunk; no chunk of any bag starts before the first chunks of all bags, and
none ends behind the last chunks of all bags. -/
def EndsOrdered (view : View) (world : World) : Prop :=
  view.PickedBefore world List.head? (fun t u => t.key ≤ u.key) (fun chunk => chunk.info.startTime) ∧
    view.PickedBefore world List.getLast? (fun t u => u.key ≤ t.key) fun chunk => chunk.info.endTime

theorem mem_times {b : ℕ} {bag : Bag} {chunk : Chunk} (time : Chunk → TimeValue) (hb : b ∈ view.bags)
    (hbag : world.bags[b]? = some bag) (hchunk : chunk ∈ bag.chunks) :
    time chunk ∈ view.times world time := by
  refine List.mem_flatMap.2 ⟨b, hb, List.mem_map.2 ⟨chunk, ?_, rfl⟩⟩
  rw [hbag]
  exact hchunk

theorem startTime_iff :
    (∃ t, view.getStartTime world = .ok t ∧
        IsFirst t (view.times world fun chunk => chunk.info.startTime)) ↔
      view.PickedBefore world List.head? (fun t u => t.key ≤ u.key) fun chunk => chunk.info.startTime :=
  timeOverBags_iff extremum_earlier fun _ _ => List.mem_of_mem_head?

theorem endTime_iff :
    (∃ t, view.getEndTime world = .ok t ∧ IsLast t (view.times world fun chunk => chunk.info.endTime)) ↔
      view.PickedBefore world List.getLast? (fun t u => u.key ≤ t.key) fun chunk => chunk.info.endTime :=
  timeOverBags_iff extremum_later fun _ _ => List.mem_of_mem_getLast?

/-- The times of a view are right exactly for views whose bags begin and end with the right
chunks. -/
theorem timesBound_iff (env : Env) (view : View) (world : World)
    (hbags : ∀ b ∈ view.bags, b < world.bags.length) :
    view.TimesBound env world ↔ view.EndsOrdered world := by
  constructor
  · exact fun h => ⟨startTime_iff.1 h.startTime, endTime_iff.1 h.endTime⟩
  · rintro ⟨hstart, hend⟩
    refine ⟨startTime_iff.2 hstart, endTime_iff.2 hend, ?_⟩
    intro htimes selection st out st' hbegins hsteps x hx
    obtain ⟨t, ht, hfirst⟩ := startTime_iff.2 hstart
    obtain ⟨t', ht', hlast⟩ := endTime_iff.2 hend
    obtain ⟨b, hb, bag, hbag, chunk, hchunk, hspans⟩ := Begins.spans hbags htimes hbegins hsteps hx
    refine ⟨t, t', ht, ht', ?_, ?_⟩
    · exact (hfirst.1 _ (mem_times (fun chunk => chunk.info.startTime) hb hbag hchunk)).trans hspans.1
    · exact hspans.2.trans (hlast.1 _ (mem_times (fun chunk => chunk.info.endTime) hb hbag hchunk))

theorem timesBound_sample :
    View.TimesBound sampleEnv { bags := [0] } { bags := [sampleOpened false] } ↔
      View.EndsOrdered { bags := [0] } { bags := [sampleOpened false] } :=
  timesBound_iff sampleEnv { bags := [0] } { bags := [sampleOpened false] } (by simp)

def reversedBag : BagFile where
  toBagLayout := { pairLayout with infos := [pairInfo true, pairInfo false] }
  has := by decide +kernel
  ids := List.Perm.refl _
  infosOf := by decide
  positions := by decide +kernel
  counts := by decide
  indexed := by decide
  messages := by decide
  connectionsFit := two_fits
  chunksFit := two_fits
  size := by decide +kernel

/-- The later of two chunks comes first: the view starts with its time. -/
theorem not_timesBound_sample : Bag.ofBytes reversedBag.encode = .ok reversedBag.bag ∧
    ¬ View.TimesBound sampleEnv { bags := [0] } { bags := [reversedBag.bag] } := by
  refine ⟨reversedBag.ofBytes_bag, fun h => ?_⟩
  obtain ⟨t, ht, hfirst, -⟩ := h.startTime
  have hseven : View.getStartTime { bags := [0] } { bags := [reversedBag.bag] } = .ok ⟨7, 0⟩ := by decide +kernel
  have hfive : ⟨5, 0⟩ ∈ View.times { bags := [0] } { bags := [reversedBag.bag] }
      fun chunk => chunk.info.startTime := by decide +kernel
  rw [hseven] at ht
  cases ht
  have hle := TimeValue.key_le_iff.1 (hfirst ⟨5, 0⟩ hfive)
  revert hle
  decide

end View

end Embag
