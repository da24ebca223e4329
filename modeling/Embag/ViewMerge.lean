import Mathlib.Data.Prod.Lex
import Embag.BagContents
import Embag.Library.Merge
import Embag.ViewSteps

/-! The iterator merges the streams of the bags: the queue holds the wrappers that have a
message, with the one of the least time in front, and nothing of a stream is lost on the way. -/

namespace Embag

open Heap Merge

/-- Times in their order: seconds, then nanoseconds. -/
def TimeValue.key (t : TimeValue) : ℕ ×ₗ ℕ := toLex (t.secs.toNat, t.nsecs.toNat)

theorem timestampCompare_eq_false_iff {left right : TimeValue} :
    timestampCompare left right = false ↔ left.key ≤ right.key := by
  simp only [timestampCompare, TimeValue.key, Prod.Lex.toLex_le_toLex, gt_iff_lt, UInt32.lt_iff_toNat_lt,
    ← UInt32.toNat_inj]
  split_ifs with h h'
  · simp only [false_iff]
    omega
  · simp only [false_iff]
    omega
  · simp only [true_iff]
    omega

theorem strictWeak_timestampCompare : StrictWeak timestampCompare where
  asymm a b hab := by
    by_contra hba
    rw [← Bool.not_eq_true, not_not, ← Bool.not_eq_false, timestampCompare_eq_false_iff] at *
    exact hab (le_of_lt (lt_of_not_ge hba))
  trans a b c hab hbc := by
    rw [timestampCompare_eq_false_iff] at *
    exact le_trans hab hbc

theorem World.strictWeak_compare (world : World) : StrictWeak world.compare where
  asymm _ _ h := strictWeak_timestampCompare.asymm _ _ h
  trans _ _ _ h h' := strictWeak_timestampCompare.trans _ _ _ h h'

/-- The state of the wrappers of a view between two operations, for the files the bags were
opened from. -/
structure Merging (files : List Bag) (wrapperOf : ℕ → Option ℕ) (world : World) (queue : List ℕ) :
    Prop where
  files_eq : world.files = files
  wrapper : ∀ {b p}, wrapperOf b = some p → ∃ w bag, world.wrappers[p]? = some w ∧
    w.scan.bag = b ∧ files[b]? = some bag ∧ w.scan.Sound
  nodup : queue.Nodup
  mem : ∀ {p}, p ∈ queue → ∃ b, wrapperOf b = some p
  heap : IsHeap world.compare queue

/-- What a wrapper has still to give: it is to be read next, or queued with its current
message, or at its end. -/
def Unread (codecs : Codecs) (bag : Bag) (queue todo : List ℕ) (p : ℕ) (w : BagWrapper)
    (ms : List CurrentMessage) : Prop :=
  if p ∈ todo then Remaining bag codecs w.scan ms
  else if p ∈ queue then ∃ rest, ms = w.current :: rest ∧ Remaining bag codecs w.scan rest
  else ms = []

structure Pending (codecs : Codecs) (files : List Bag) (wrapperOf : ℕ → Option ℕ) (world : World)
    (queue todo : List ℕ) (pending : ℕ → List CurrentMessage) : Prop where
  none : ∀ {b}, wrapperOf b = none → pending b = []
  some : ∀ {b p w bag}, wrapperOf b = some p → world.wrappers[p]? = some w → files[b]? = some bag →
    Unread codecs bag queue todo p w (pending b)

section Invariant

variable {files : List Bag} {wrapperOf : ℕ → Option ℕ} {env : Env} {world world' : World}
  {queue queue' todo : List ℕ} {pending : ℕ → List CurrentMessage} {b p : ℕ}

theorem Merging.eq_of_wrapperOf (h : Merging files wrapperOf world queue) {b' : ℕ}
    (hb : wrapperOf b = some p) (hb' : wrapperOf b' = some p) : b = b' := by
  obtain ⟨w, _, hw, rfl, -⟩ := h.wrapper hb
  obtain ⟨w', _, hw', rfl, -⟩ := h.wrapper hb'
  rw [hw] at hw'
  cases hw'
  rfl

theorem readMessage_file (bag : Bag) (codecs : Codecs) (s : Scan) :
    s.readMessage bag.file codecs = s.readMessage bag codecs := rfl

theorem files_eq_of_bags (h : world'.bags = world.bags) : world'.files = world.files := by
  rw [World.files, h, World.files]

/-- A wrapper that is not queued gives way to one of the same bag; nothing else has changed. -/
theorem Merging.replace (h : Merging files wrapperOf world queue) (hb : wrapperOf b = some p)
    (hnew : p ∉ queue) (hp : p < world.wrappers.length) {file : Bag} (hfile : files[b]? = some file)
    {w' : BagWrapper} (hwrappers : world'.wrappers = world.wrappers.set p w') (hbag' : w'.scan.bag = b)
    (hsound' : w'.scan.Sound) :
    (∀ q, q ≠ p → world'.wrappers[q]? = world.wrappers[q]?) ∧ world'.wrappers[p]? = some w' ∧
      (∀ {b p}, wrapperOf b = some p → ∃ w bag, world'.wrappers[p]? = some w ∧ w.scan.bag = b ∧
        files[b]? = some bag ∧ w.scan.Sound) ∧ IsHeap world'.compare queue := by
  have hother : ∀ q, q ≠ p → world'.wrappers[q]? = world.wrappers[q]? := by
    intro q hq
    rw [hwrappers, List.getElem?_set_ne (Ne.symm hq)]
  have hself : world'.wrappers[p]? = some w' := by
    rw [hwrappers, List.getElem?_set_self hp]
  refine ⟨hother, hself, ?_, ?_⟩
  · intro b' q hb'
    by_cases hq : q = p
    · subst hq
      have heq := h.eq_of_wrapperOf hb hb'
      subst heq
      exact ⟨w', _, hself, hbag', hfile, hsound'⟩
    · rw [hother q hq]
      exact h.wrapper hb'
  · refine h.heap.congr fun x hx y hy => ?_
    have hne : ∀ z ∈ queue, world'.timestamp z = world.timestamp z := by
      intro z hz
      have hzp : z ≠ p := by
        rintro rfl
        exact hnew hz
      rw [World.timestamp, hother z hzp, World.timestamp]
    rw [World.compare, World.compare, hne x hx, hne y hy]

theorem Merging.readMessage (h : Merging files wrapperOf world queue) (hb : wrapperOf b = some p)
    (hnew : p ∉ queue) (hread : world.readMessage env p queue = (world', .ok queue')) :
    Merging files wrapperOf world' queue' ∧
      ((∀ q, q ≠ p → world'.wrappers[q]? = world.wrappers[q]?) ∧ ∀ q, q ≠ p → (q ∈ queue' ↔ q ∈ queue)) ∧
      ∃ w w' bag, world.wrappers[p]? = some w ∧ world'.wrappers[p]? = some w' ∧
        files[b]? = some bag ∧
        (Scan.Gives bag env.codecs w.scan w'.scan (.ok none) ∧ p ∉ queue' ∨
          Scan.Gives bag env.codecs w.scan w'.scan (.ok (some w'.current)) ∧ p ∈ queue') := by
  obtain ⟨w, bag, scan, hw, hbag, hbags, hcase⟩ := World.readMessage_ok hread
  obtain ⟨w₀, file, hw₀, hscan, hfile, hsound⟩ := h.wrapper hb
  rw [hw] at hw₀
  cases hw₀
  have hfile' : bag.file = file := by
    have hsome := files_getElem? hbag
    rw [h.files_eq, hscan, hfile] at hsome
    exact (Option.some.inj hsome).symm
  subst hfile'
  obtain ⟨hp, -⟩ := List.getElem?_eq_some_iff.1 hw
  have hfiles : world'.files = files := (files_eq_of_bags hbags).trans h.files_eq
  rcases hcase with ⟨hscan', hwrappers, rfl⟩ | ⟨current, hscan', hwrappers, hqueue⟩
  · rw [← readMessage_file] at hscan'
    obtain ⟨hsound', hcont⟩ := hsound.readMessage hscan'
    obtain ⟨hother, hself, hall, hheap⟩ := h.replace hb hnew hp hfile hwrappers (hcont.bag.trans hscan) hsound'
    exact ⟨⟨hfiles, hall, h.nodup, h.mem, hheap⟩, ⟨hother, fun _ _ => Iff.rfl⟩, w, _, bag.file, hw,
      hself, hfile, .inl ⟨Scan.gives_of_readMessage hsound hscan', hnew⟩⟩
  · rw [← readMessage_file] at hscan'
    obtain ⟨hsound', hcont⟩ := hsound.readMessage hscan'
    obtain ⟨hother, hself, hall, hheap⟩ := h.replace hb hnew hp hfile hwrappers (hcont.bag.trans hscan) hsound'
    have hperm : queue'.Perm (p :: queue) := by
      rw [hqueue]
      exact env.heap.push_perm _ _ _
    refine ⟨⟨hfiles, hall, hperm.nodup_iff.2 (List.nodup_cons.2 ⟨hnew, h.nodup⟩), ?_, ?_⟩,
      ⟨hother, ?_⟩, w, _, bag.file, hw, hself, hfile,
      .inr ⟨Scan.gives_of_readMessage hsound hscan', hperm.mem_iff.2 List.mem_cons_self⟩⟩
    · intro q hq
      rcases List.mem_cons.1 (hperm.mem_iff.1 hq) with rfl | hq
      · exact ⟨b, hb⟩
      · exact h.mem hq
    · rw [hqueue]
      exact env.heap.push_heap p (World.strictWeak_compare _) hheap
    · intro q hq
      rw [hperm.mem_iff, List.mem_cons, or_iff_right hq]

theorem Merging.pending_readMessage (h : Merging files wrapperOf world queue)
    (hb : wrapperOf b = some p) (hnew : p ∉ queue) (htodo : p ∉ todo)
    (hread : world.readMessage env p queue = (world', .ok queue')) :
    Pending env.codecs files wrapperOf world' queue' todo pending ↔
      Pending env.codecs files wrapperOf world queue (p :: todo) pending := by
  obtain ⟨-, ⟨hother, hqueue⟩, w, w', bag, hw, hw', hbag, hgives⟩ := h.readMessage hb hnew hread
  -- the wrapper that was read
  have hself : Unread env.codecs bag queue' todo p w' (pending b) ↔
      Unread env.codecs bag queue (p :: todo) p w (pending b) := by
    rw [Unread, if_neg htodo, Unread, if_pos List.mem_cons_self]
    rcases hgives with ⟨hgives, hmem⟩ | ⟨hgives, hmem⟩
    · rw [if_neg hmem]
      exact (hgives _).symm
    · rw [if_pos hmem]
      exact (hgives _).symm
  -- the others are where they were
  have hsame : ∀ {b' q : ℕ} {v : BagWrapper} {bag'}, q ≠ p →
      (Unread env.codecs bag' queue' todo q v (pending b') ↔
        Unread env.codecs bag' queue (p :: todo) q v (pending b')) := by
    intro b' q v bag' hq
    simp only [Unread, hqueue q hq, List.mem_cons, hq, false_or]
  constructor
  · intro hpending
    refine ⟨hpending.none, fun {b' q v bag'} hb' hv hbag' => ?_⟩
    by_cases hq : q = p
    · subst hq
      have heq := h.eq_of_wrapperOf hb hb'
      subst heq
      rw [hw] at hv
      cases hv
      rw [hbag] at hbag'
      cases hbag'
      exact hself.1 (hpending.some hb hw' hbag)
    · rw [← hother q hq] at hv
      exact (hsame hq).1 (hpending.some hb' hv hbag')
  · intro hpending
    refine ⟨hpending.none, fun {b' q v bag'} hb' hv hbag' => ?_⟩
    by_cases hq : q = p
    · subst hq
      have heq := h.eq_of_wrapperOf hb hb'
      subst heq
      rw [hw'] at hv
      cases hv
      rw [hbag] at hbag'
      cases hbag'
      exact hself.2 (hpending.some hb hw hbag)
    · rw [hother q hq] at hv
      exact (hsame hq).2 (hpending.some hb' hv hbag')

/-- Taking the front of the queue. -/
theorem Merging.pop (env : Env) (h : Merging files wrapperOf world (p :: queue)) :
    Merging files wrapperOf world (env.heap.pop world.compare (p :: queue)) ∧
      p ∉ env.heap.pop world.compare (p :: queue) := by
  have hperm := env.heap.pop_perm world.compare p queue
  have hnodup := List.nodup_cons.1 h.nodup
  refine ⟨⟨h.files_eq, h.wrapper, hperm.nodup_iff.2 hnodup.2, ?_, ?_⟩, ?_⟩
  · intro q hq
    exact h.mem (List.mem_cons_of_mem _ (hperm.mem_iff.1 hq))
  · exact env.heap.pop_heap (World.strictWeak_compare _) h.heap
  · rw [hperm.mem_iff]
    exact hnodup.1

theorem Merging.pending_pop (h : Merging files wrapperOf world (p :: queue)) {w : BagWrapper}
    (hb : wrapperOf b = some p) (hw : world.wrappers[p]? = some w) :
    Pending env.codecs files wrapperOf world (p :: queue) []
        (Function.update pending b (w.current :: pending b)) ↔
      Pending env.codecs files wrapperOf world (env.heap.pop world.compare (p :: queue)) [p]
        pending := by
  have hperm := env.heap.pop_perm world.compare p queue
  have hne : ∀ {b' q}, wrapperOf b' = some q → q ≠ p → b' ≠ b := by
    rintro b' q hb' hq rfl
    rw [hb] at hb'
    exact hq (Option.some.inj hb').symm
  -- the wrapper at the front
  have hself : ∀ {bag}, Unread env.codecs bag (p :: queue) [] p w (w.current :: pending b) ↔
      Unread env.codecs bag (env.heap.pop world.compare (p :: queue)) [p] p w (pending b) := by
    intro bag
    simp [Unread]
  -- the others
  have hsame : ∀ {b' q v bag}, q ≠ p → (Unread env.codecs bag (p :: queue) [] q v (pending b') ↔
      Unread env.codecs bag (env.heap.pop world.compare (p :: queue)) [p] q v (pending b')) := by
    intro b' q v bag hq
    simp only [Unread, hperm.mem_iff, List.mem_cons, hq, false_or, List.not_mem_nil]
  constructor
  · intro hpending
    refine ⟨fun {b'} hb' => ?_, fun {b' q v bag} hb' hv hbag => ?_⟩
    · have hnone := hpending.none hb'
      rwa [Function.update_of_ne (by rintro rfl; simp [hb] at hb')] at hnone
    · have hsome := hpending.some hb' hv hbag
      by_cases hq : q = p
      · subst hq
        have heq := h.eq_of_wrapperOf hb hb'
        subst heq
        rw [hw] at hv
        cases hv
        rw [Function.update_self] at hsome
        exact hself.1 hsome
      · rw [Function.update_of_ne (hne hb' hq)] at hsome
        exact (hsame hq).1 hsome
  · intro hpending
    refine ⟨fun {b'} hb' => ?_, fun {b' q v bag} hb' hv hbag => ?_⟩
    · rw [Function.update_of_ne (by rintro rfl; simp [hb] at hb')]
      exact hpending.none hb'
    · have hsome := hpending.some hb' hv hbag
      by_cases hq : q = p
      · subst hq
        have heq := h.eq_of_wrapperOf hb hb'
        subst heq
        rw [hw] at hv
        cases hv
        rw [Function.update_self]
        exact hself.2 hsome
      · rw [Function.update_of_ne (hne hb' hq)]
        exact (hsame hq).2 hsome

theorem Merging.head (h : Merging files wrapperOf world queue)
    (hpending : Pending env.codecs files wrapperOf world queue [] pending) {c : CurrentMessage}
    {rest : List CurrentMessage} (hc : pending b = c :: rest) :
    ∃ p w, p ∈ queue ∧ world.wrappers[p]? = some w ∧ w.current = c := by
  rcases hb : wrapperOf b with _ | p
  · rw [hpending.none hb] at hc
    cases hc
  · obtain ⟨w, bag, hw, -, hbag, -⟩ := h.wrapper hb
    have hsome := hpending.some hb hw hbag
    rw [Unread, if_neg (by simp), hc] at hsome
    split_ifs at hsome with hp
    obtain ⟨rest', heq, -⟩ := hsome
    cases heq
    exact ⟨p, w, hp, hw, rfl⟩

theorem Merging.deref (h : Merging files wrapperOf world queue) {bag bag' : Bag} {b' : ℕ}
    (hbag : world.bags[b']? = some bag) (hfile : bag'.file = bag.file) :
    Merging files wrapperOf { world with bags := world.bags.set b' bag' } queue :=
  ⟨(files_set hbag hfile).trans h.files_eq, h.wrapper, h.nodup, h.mem, h.heap⟩

end Invariant

/-- A stream of messages that is shown by what is returned for it. -/
def Streams (files : List Bag) (pending : ℕ → List CurrentMessage) (streams : ℕ → List RosMessage) :
    Prop :=
  ∀ b, List.Forall₂ (fun c m => ∃ bag, files[b]? = some bag ∧ Shows bag c m) (pending b) (streams b)

def RosMessage.key (m : RosMessage) : ℕ ×ₗ ℕ := m.timestamp.key

section Merge

variable {files : List Bag} {wrapperOf : ℕ → Option ℕ} {env : Env}

/-- The turns of a loop that reaches the end merge what the bags have to give. -/
theorem Merging.merge {st st' : World × Iterator} {out : List (ℕ × RosMessage)}
    (h : Merging files wrapperOf st.1 st.2.msgQueue) (hsteps : Steps env st out st')
    (hend : st'.2.atEnd) :
    ∃ pending streams, Pending env.codecs files wrapperOf st.1 st.2.msgQueue [] pending ∧
      Streams files pending streams ∧ IsMerge RosMessage.key streams out := by
  induction hsteps with
  | @refl st =>
    have hqueue : st.2.msgQueue = [] := by simpa [Iterator.atEnd] using hend
    refine ⟨fun _ => [], fun _ => [], ⟨fun _ => rfl, fun _ _ _ => ?_⟩, fun _ => .nil, .nil fun _ => rfl⟩
    simp [Unread, hqueue]
  | @step world world₁ it m st st' out hderef hadvance _ ih =>
    obtain ⟨p, queue, w, bag, bag', hqueue, hw, hbag, hshows, hdef, rfl⟩ := Iterator.deref_ok hderef
    obtain ⟨p', queue', hqueue', hread⟩ := Iterator.advance_ok hadvance
    rw [hqueue] at hqueue' h
    cases hqueue'
    obtain ⟨b, hb⟩ := h.mem List.mem_cons_self
    obtain ⟨w₀, file, hw₀, hscan, hfile, hsound⟩ := h.wrapper hb
    rw [hw] at hw₀
    cases hw₀
    have hfront : it.frontBag world = b := by simp [Iterator.frontBag, hqueue, hw, hscan]
    have hderefed := h.deref hbag (Bag.file_of_msgDefForTopic hdef)
    obtain ⟨hpopped, hnew⟩ := hderefed.pop env
    obtain ⟨hnext, -, -⟩ := hpopped.readMessage hb hnew hread
    obtain ⟨pending, streams, hpending, hstreams, hmerge⟩ := ih hnext hend
    have hpending := (hpopped.pending_readMessage hb hnew (List.not_mem_nil) hread).1 hpending
    have hpending := (hderefed.pending_pop hb hw).2 hpending
    have hstreams : Streams files (Function.update pending b (w.current :: pending b))
        (Function.update streams b (m :: streams b)) := by
      intro b'
      by_cases hne : b' = b
      · subst hne
        rw [Function.update_self, Function.update_self]
        have hfiles := files_getElem? hbag
        rw [h.files_eq, hscan] at hfiles
        exact .cons ⟨_, hfiles, hshows.file⟩ (hstreams b')
      · rw [Function.update_of_ne hne, Function.update_of_ne hne]
        exact hstreams b'
    refine ⟨_, _, by rw [hqueue]; exact ⟨hpending.none, hpending.some⟩, hstreams, ?_⟩
    rw [hfront]
    refine .cons (Function.update_self ..) ?_ (by simpa using hmerge)
    -- no message that heads a stream is earlier than the one in front of the queue
    intro j m' ms hms
    have hj := hstreams j
    rw [hms] at hj
    cases hpendingj : Function.update pending b (w.current :: pending b) j with
    | nil => simp [hpendingj] at hj
    | cons c cs =>
      rw [hpendingj] at hj
      cases hj with
      | cons hc _ =>
        obtain ⟨_, -, hshows'⟩ := hc
        obtain ⟨q, v, hq, hv, rfl⟩ := hderefed.head hpending hpendingj
        have hleast := h.heap.front (World.strictWeak_compare _) q hq
        rw [World.compare, timestampCompare_eq_false_iff] at hleast
        simpa [RosMessage.key, World.timestamp, hw, hv, hshows.timestamp, hshows'.timestamp] using hleast

/-! ### From `getMessages` to the first message -/

theorem World.resetIter_eq {world : World} {p : ℕ} {w : BagWrapper} (hw : world.wrappers[p]? = some w)
    (hfront : w.scan.chunkIter = 0) : world.resetIter p = world := by
  have hreset : ({ w with scan.chunkIter := 0 } : BagWrapper) = w := by rw [← hfront]
  have hmodify : world.wrappers.modify p (fun w => { w with scan.chunkIter := 0 }) = world.wrappers := by
    obtain ⟨hp, rfl⟩ := List.getElem?_eq_some_iff.1 hw
    rw [List.modify_eq_set_getElem?, hw, Option.map_eq_map, Option.map_some, Option.getD_some, hreset,
      List.set_getElem_self]
  rw [resetIter, hmodify]

/-- The loop of `begin` gives every wrapper its first message. -/
theorem Merging.beginLoop {world world' : World} {ps queue queue' : List ℕ}
    (h : Merging files wrapperOf world queue) (hnodup : ps.Nodup) (hnew : ∀ p ∈ ps, p ∉ queue)
    (hmem : ∀ p ∈ ps, ∃ b, wrapperOf b = some p)
    (hfront : ∀ p ∈ ps, ∀ w, world.wrappers[p]? = some w → w.scan.chunkIter = 0)
    (hloop : world.beginLoop env ps queue = (world', .ok queue')) :
    Merging files wrapperOf world' queue' ∧ ∀ pending,
      Pending env.codecs files wrapperOf world' queue' [] pending ↔
        Pending env.codecs files wrapperOf world queue ps pending := by
  induction ps generalizing world queue with
  | nil =>
    cases hloop
    exact ⟨h, fun _ => Iff.rfl⟩
  | cons p ps ih =>
    obtain ⟨world₁, queue₁, hread, hloop⟩ := World.beginLoop_cons_ok hloop
    obtain ⟨b, hb⟩ := hmem p List.mem_cons_self
    obtain ⟨w, _, hw, -⟩ := h.wrapper hb
    rw [World.resetIter_eq hw (hfront p List.mem_cons_self w hw)] at hread
    have hp := List.nodup_cons.1 hnodup
    have hpq := hnew p List.mem_cons_self
    obtain ⟨hnext, ⟨hother, hqueue⟩, -⟩ := h.readMessage hb hpq hread
    have hne : ∀ q ∈ ps, q ≠ p := by
      rintro q hq rfl
      exact hp.1 hq
    obtain ⟨hend, hpending⟩ := ih hnext hp.2
      (fun q hq => by rw [hqueue q (hne q hq)]; exact hnew q (List.mem_cons_of_mem _ hq))
      (fun q hq => hmem q (List.mem_cons_of_mem _ hq))
      (fun q hq w hw => by
        rw [hother q (hne q hq)] at hw
        exact hfront q (List.mem_cons_of_mem _ hq) w hw) hloop
    exact ⟨hend, fun pending => (hpending pending).trans (h.pending_readMessage hb hpq hp.1 hread)⟩

end Merge

namespace View

variable {selection : Selection}

structure Wrapped (selection : Selection) (world : World) (done : List ℕ) (st : World × View) : Prop where
  bags : st.1.bags = world.bags
  mem : ∀ b, b ∈ st.2.bagWrappers ↔ b ∈ done
  wrapper : ∀ {b p}, st.2.bagWrappers.lookup b = some p → ∃ bag, world.bags[b]? = some bag ∧
    st.1.wrappers[p]? = some (wrapper selection b bag)

theorem Wrapped.step {world : World} {done : List ℕ} {st : World × View} {b : ℕ}
    (h : Wrapped selection world done st) (hb : b < world.bags.length) :
    Wrapped selection world (done ++ [b]) (addWrapper selection st b) where
  bags := h.bags
  mem b' := by simp [addWrapper, h.mem, or_comm]
  wrapper {b' p} hlookup := by
    have hbag : st.1.bags[b]? = some world.bags[b] := by simp [h.bags, hb]
    simp only [addWrapper, hbag, Option.map_some, Option.toList_some] at hlookup ⊢
    by_cases hne : b' = b
    · subst hne
      rw [AList.lookup_insert] at hlookup
      cases hlookup
      exact ⟨_, List.getElem?_eq_getElem hb, by simp⟩
    · rw [AList.lookup_insert_ne hne] at hlookup
      obtain ⟨bag, hsome, hw⟩ := h.wrapper hlookup
      obtain ⟨hp, -⟩ := List.getElem?_eq_some_iff.1 hw
      exact ⟨bag, hsome, by rw [List.getElem?_append_left hp]; exact hw⟩

theorem wrapped_getMessages (selection : Selection) {view : View} {world : World}
    (hbags : ∀ b ∈ view.bags, b < world.bags.length) : Wrapped selection world view.bags (view.getMessages selection world) := by
  have hfold : ∀ (rest done : List ℕ) (st : World × View), (∀ b ∈ rest, b < world.bags.length) →
      Wrapped selection world done st →
      Wrapped selection world (done ++ rest) (rest.foldl (addWrapper selection) st) := by
    intro rest
    induction rest with
    | nil =>
      intro done st _ h
      simpa using h
    | cons b rest ih =>
      intro done st hrest h
      rw [List.forall_mem_cons] at hrest
      have hstep := ih _ _ hrest.2 (h.step hrest.1)
      rwa [List.append_assoc] at hstep
  refine hfold view.bags [] _ hbags ⟨rfl, by simp, ?_⟩
  intro b p hlookup
  simp at hlookup

theorem mem_wrappers {view : View} {p : ℕ} :
    p ∈ view.wrappers ↔ ∃ b, view.bagWrappers.lookup b = some p := by
  simp only [wrappers, List.mem_map, ← Option.mem_def, AList.mem_lookup_iff]
  constructor
  · rintro ⟨⟨b, p⟩, hmem, rfl⟩
    exact ⟨b, hmem⟩
  · rintro ⟨b, hmem⟩
    exact ⟨_, hmem, rfl⟩

theorem Wrapped.nodup {world : World} {done : List ℕ} {st : World × View}
    (h : Wrapped selection world done st) : st.2.wrappers.Nodup := by
  refine List.Nodup.map_on ?_ st.2.bagWrappers.nodupKeys.nodup
  rintro ⟨b, p⟩ hx ⟨b', p'⟩ hy (rfl : p = p')
  obtain ⟨bag, -, hw⟩ := h.wrapper (AList.mem_lookup_iff.2 hx)
  obtain ⟨bag', -, hw'⟩ := h.wrapper (AList.mem_lookup_iff.2 hy)
  have heq : (View.wrapper selection b bag).scan.bag = (View.wrapper selection b' bag').scan.bag := by
    rw [hw] at hw'
    rw [Option.some.inj hw']
  cases selection <;> cases heq <;> rfl

theorem wrapper_front (selection : Selection) (b : ℕ) (bag : Bag) :
    (wrapper selection b bag).scan.bag = b ∧ (wrapper selection b bag).scan.currentBuffer = none ∧
      (wrapper selection b bag).scan.processedBytes = 0 ∧
      (wrapper selection b bag).scan.chunkIter = 0 := by
  cases selection <;> exact ⟨rfl, rfl, rfl, rfl⟩

theorem wrapper_file (b : ℕ) (bag : Bag) : wrapper selection b bag.file = wrapper selection b bag := by
  cases selection <;> rfl

/-- An iterator that `begin()` has made of a view freshly prepared by `getMessages`. -/
def Begins (env : Env) (selection : Selection) (view : View) (world : World) (st : World × Iterator) :
    Prop :=
  ∃ order, order.Perm (view.getMessages selection world).2.wrappers ∧
    (view.getMessages selection world).1.begin env order = (st.1, .ok st.2)

/-- The messages a loop of at most `fuel` turns over the view gets, if it comes to its end. -/
def messages (env : Env) (selection : Selection) (fuel : ℕ) (view : View) (world : World) :
    Option (List (ℕ × RosMessage)) :=
  match (view.getMessages selection world).1.begin env (view.getMessages selection world).2.wrappers with
  | (_, .error _) => none
  | (world, .ok it) => (takeAll env fuel (world, it)).map Prod.fst

theorem exists_of_messages {env : Env} {fuel : ℕ} {view : View} {world : World}
    {out : List (ℕ × RosMessage)} (h : view.messages env selection fuel world = some out) :
    ∃ st st', Begins env selection view world st ∧ Steps env st out st' ∧ st'.2.atEnd := by
  rw [messages] at h
  rcases hbegin : (view.getMessages selection world).1.begin env
    (view.getMessages selection world).2.wrappers with ⟨world', e | it⟩
  · simp [hbegin] at h
  · simp only [hbegin, Option.map_eq_some_iff] at h
    obtain ⟨⟨out', st'⟩, htake, rfl⟩ := h
    exact ⟨(world', it), st', ⟨_, List.Perm.refl _, hbegin⟩, steps_of_takeAll htake⟩

structure FileOrder (codecs : Codecs) (selection : Selection) (b : ℕ) (bag : Bag)
    (ms : List CurrentMessage) : Prop where
  ordered : OrderedSet.Ordered bag.chunkOffset (wrapper selection b bag).scan.chunksToParse
  messages : ∃ mss, bag.ChunksHold codecs (wrapper selection b bag).scan.chunksToParse mss ∧
    ms = (wrapper selection b bag).scan.wanted mss.flatten

theorem remaining_wrapper {codecs : Codecs} {b : ℕ} {bag : Bag} {ms : List CurrentMessage} :
    Remaining bag codecs (wrapper selection b bag).scan ms ↔ FileOrder codecs selection b bag ms := by
  obtain ⟨-, hbuffer, hbytes, hiter⟩ := wrapper_front selection b bag
  rw [Scan.remaining_between hbuffer hbytes, hiter, List.drop_zero]
  refine ⟨fun h => ⟨?_, h⟩, fun h => h.messages⟩
  cases selection <;> exact OrderedSet.ordered_ofList _

theorem fileOrder_file {codecs : Codecs} {b : ℕ} {bag : Bag} {ms : List CurrentMessage} :
    FileOrder codecs selection b bag.file ms ↔ FileOrder codecs selection b bag ms := by
  constructor
  · rintro ⟨hordered, hmessages⟩
    rw [wrapper_file] at hordered hmessages
    exact ⟨hordered, hmessages⟩
  · rintro ⟨hordered, hmessages⟩
    rw [← wrapper_file] at hordered hmessages
    exact ⟨hordered, hmessages⟩

section Begins

variable {env : Env} {view : View} {world : World} {st : World × Iterator}

def wrapperOf (selection : Selection) (view : View) (world : World) (b : ℕ) : Option ℕ :=
  (view.getMessages selection world).2.bagWrappers.lookup b

theorem wrapperOf_eq_none_iff (selection : Selection) (hbags : ∀ b ∈ view.bags, b < world.bags.length) {b : ℕ} :
    wrapperOf selection view world b = none ↔ b ∉ view.bags := by
  rw [wrapperOf, AList.lookup_eq_none, (wrapped_getMessages _ hbags).mem]

theorem mem_wrappers_iff {p : ℕ} : p ∈ (view.getMessages selection world).2.wrappers ↔
    ∃ b, wrapperOf selection view world b = some p := mem_wrappers

theorem merging_getMessages (hbags : ∀ b ∈ view.bags, b < world.bags.length) :
    Merging world.files (wrapperOf selection view world) (view.getMessages selection world).1 [] := by
  have hwrapped := wrapped_getMessages selection hbags
  refine ⟨files_eq_of_bags hwrapped.bags, ?_, List.nodup_nil, by simp, isHeap_nil⟩
  intro b p hb
  obtain ⟨bag, hbag, hw⟩ := hwrapped.wrapper hb
  obtain ⟨hscan, hbuffer, hbytes, -⟩ := wrapper_front selection b bag
  exact ⟨_, _, hw, hscan, files_getElem? hbag, fun _ => hbytes, fun hne => absurd hbuffer hne⟩

theorem front_getMessages (hbags : ∀ b ∈ view.bags, b < world.bags.length) {p : ℕ}
    (hp : p ∈ (view.getMessages selection world).2.wrappers) {w : BagWrapper}
    (hw : (view.getMessages selection world).1.wrappers[p]? = some w) : w.scan.chunkIter = 0 := by
  obtain ⟨b, hb⟩ := mem_wrappers_iff.1 hp
  obtain ⟨bag, -, hw'⟩ := (wrapped_getMessages _ hbags).wrapper hb
  rw [hw] at hw'
  cases hw'
  exact (wrapper_front selection b bag).2.2.2

theorem pending_getMessages (env : Env) (hbags : ∀ b ∈ view.bags, b < world.bags.length)
    {order : List ℕ} (horder : order.Perm (view.getMessages selection world).2.wrappers)
    {pending : ℕ → List CurrentMessage} :
    Pending env.codecs world.files (wrapperOf selection view world)
        (view.getMessages selection world).1 [] order pending ↔
      (∀ b ∉ view.bags, pending b = []) ∧ ∀ b ∈ view.bags, ∀ bag, world.bags[b]? = some bag →
        FileOrder env.codecs selection b bag (pending b) := by
  have hwrapped := wrapped_getMessages selection hbags
  have hmem : ∀ {b p}, wrapperOf selection view world b = some p → p ∈ order := fun {b p} hb =>
    horder.mem_iff.2 (mem_wrappers_iff.2 ⟨b, hb⟩)
  have hunread : ∀ {b p bag}, wrapperOf selection view world b = some p →
      (Unread env.codecs bag.file [] order p (wrapper selection b bag) (pending b) ↔
        FileOrder env.codecs selection b bag (pending b)) := by
    intro b p bag hb
    rw [Unread, if_pos (hmem hb), ← wrapper_file, remaining_wrapper, fileOrder_file]
  refine ⟨fun h => ⟨fun b hb => ?_, fun b hb bag hbag => ?_⟩,
    fun h => ⟨fun {b} hb => ?_, fun {b p w file} hb hw hfile => ?_⟩⟩
  · exact h.none ((wrapperOf_eq_none_iff _ hbags).2 hb)
  · obtain ⟨p, hp⟩ : ∃ p, wrapperOf selection view world b = some p := by
      rw [← Option.isSome_iff_exists, Option.isSome_iff_ne_none, Ne, wrapperOf_eq_none_iff _ hbags]
      simpa using hb
    obtain ⟨bag', hbag', hw⟩ := hwrapped.wrapper hp
    rw [hbag] at hbag'
    cases hbag'
    exact (hunread hp).1 (h.some hp hw (files_getElem? hbag))
  · exact h.1 b ((wrapperOf_eq_none_iff _ hbags).1 hb)
  · obtain ⟨bag, hbag, hw'⟩ := hwrapped.wrapper hb
    rw [hw] at hw'
    cases hw'
    rw [files_getElem? hbag] at hfile
    cases hfile
    have hmemb : b ∈ view.bags := by
      by_contra hne
      rw [(wrapperOf_eq_none_iff selection hbags).2 hne] at hb
      cases hb
    exact (hunread hb).2 (h.2 b hmemb bag hbag)

theorem Begins.merging (h : Begins env selection view world st)
    (hbags : ∀ b ∈ view.bags, b < world.bags.length) :
    Merging world.files (wrapperOf selection view world) st.1 st.2.msgQueue ∧ ∀ pending,
      Pending env.codecs world.files (wrapperOf selection view world) st.1 st.2.msgQueue [] pending ↔
        (∀ b ∉ view.bags, pending b = []) ∧ ∀ b ∈ view.bags, ∀ bag, world.bags[b]? = some bag →
          FileOrder env.codecs selection b bag (pending b) := by
  obtain ⟨order, horder, hbegin⟩ := h
  obtain ⟨hmerging, hpending⟩ := (merging_getMessages hbags).beginLoop
    (horder.nodup_iff.2 (wrapped_getMessages _ hbags).nodup) (by simp)
    (fun p hp => mem_wrappers_iff.1 (horder.mem_iff.1 hp))
    (fun p hp w hw => front_getMessages hbags (horder.mem_iff.1 hp) hw) (World.begin_ok hbegin)
  exact ⟨hmerging, fun pending => (hpending pending).trans (pending_getMessages _ hbags horder)⟩

/-- What one iterator returns up to its end, and how the streams of the bags are in it. -/
structure Merged (env : Env) (selection : Selection) (view : View) (world : World)
    (st : World × Iterator) (out : List (ℕ × RosMessage)) (streams : ℕ → List RosMessage) : Prop where
  stream : ∀ b ∈ view.bags, ∃ bag ms, world.bags[b]? = some bag ∧
    FileOrder env.codecs selection b bag ms ∧ List.Forall₂ (Shows bag) ms (streams b)
  noStream : ∀ b ∉ view.bags, streams b = []
  restrict : ∀ b, (out.filter fun x => x.1 = b).map Prod.snd = streams b
  least : IsMerge RosMessage.key streams out
  sorted : (∀ b, (streams b).Pairwise fun m m' => m.key ≤ m'.key) →
    out.Pairwise fun x y => x.2.key ≤ y.2.key
  atEnd_iff : ∀ done st', Steps env st done st' →
    (st'.2.atEnd ↔ ∀ b, (done.filter fun x => x.1 = b).map Prod.snd = streams b)

theorem Begins.merged (h : Begins env selection view world st)
    (hbags : ∀ b ∈ view.bags, b < world.bags.length) {st' : World × Iterator}
    {out : List (ℕ × RosMessage)} (hsteps : Steps env st out st') (hend : st'.2.atEnd) :
    ∃ streams, Merged env selection view world st out streams := by
  obtain ⟨hmerging, hstart⟩ := h.merging hbags
  obtain ⟨pending, streams, hpending, hstreams, hmerge⟩ := hmerging.merge hsteps hend
  obtain ⟨hnone, hfile⟩ := (hstart pending).1 hpending
  refine ⟨streams, ?_, ?_, hmerge.filter_eq, hmerge, hmerge.pairwise, ?_⟩
  · intro b hb
    have hbag := List.getElem?_eq_getElem (hbags b hb)
    refine ⟨_, _, hbag, hfile b hb _ hbag, (hstreams b).imp fun c m hshows => ?_⟩
    obtain ⟨bag, hsome, hshows⟩ := hshows
    rw [files_getElem? hbag] at hsome
    cases hsome
    exact ⟨hshows.connection, hshows.timestamp, hshows.rawBuffer, hshows.rawBufferOffset,
      hshows.rawDataLen⟩
  · intro b hb
    have hb' := hstreams b
    rw [hnone b hb] at hb'
    exact List.forall₂_nil_left_iff.1 hb'
  · intro done st₁ hdone
    obtain ⟨rest, rfl, hrest⟩ := hsteps.split hend hdone
    constructor
    · intro hend₁ b
      obtain ⟨rfl, -⟩ := hrest.eq_of_atEnd hend₁
      rw [← hmerge.filter_eq b, List.append_nil]
    · intro hall
      have hnil : rest = [] := by
        by_contra hne
        obtain ⟨x, rest, rfl⟩ := List.exists_cons_of_ne_nil hne
        have hlen := congrArg List.length (hmerge.filter_eq x.1)
        rw [← hall x.1, List.filter_append, List.filter_cons_of_pos (by simp)] at hlen
        simp at hlen
      subst hnil
      cases hrest with
      | refl => exact hend

end Begins

/-- Iterating over several bags merges them by time. -/
theorem messages_merged {env : Env} {selection : Selection} {view : View} {world : World}
    {st st' : World × Iterator} {out : List (ℕ × RosMessage)}
    (hbags : ∀ b ∈ view.bags, b < world.bags.length) (hbegin : Begins env selection view world st)
    (hsteps : Steps env st out st') (hend : st'.2.atEnd) :
    ∃ streams, Merged env selection view world st out streams :=
  hbegin.merged hbags hsteps hend

theorem messages_merged_sample : ∃ st out streams,
    Merged sampleEnv .all { bags := [0, 1] } { bags := [sampleOpened false, sampleOpened false] }
      st out streams ∧ out.length = 2 := by
  have hlength : (messages sampleEnv .all 3 { bags := [0, 1] }
      { bags := [sampleOpened false, sampleOpened false] }).map List.length = some 2 := by
    decide +kernel
  obtain ⟨out, hout, hlen⟩ := Option.map_eq_some_iff.1 hlength
  obtain ⟨st, st', hbegin, hsteps, hend⟩ := exists_of_messages hout
  obtain ⟨streams, hmerged⟩ := messages_merged (by decide) hbegin hsteps hend
  exact ⟨st, out, streams, hmerged, hlen⟩

end View

end Embag
