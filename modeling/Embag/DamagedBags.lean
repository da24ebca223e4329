import Embag.DamagedFiles
import Embag.ViewRanges

/-! Iterating over damaged bags. The messages in front of the first damaged chunk that is read are returned
as if nothing had happened, whatever stands behind them; an exception ends the loop only when all of them
have been. -/

namespace Embag

open LittleEndian

open Loops Merge

theorem Remaining.sound {bag : Bag} {codecs : Codecs} {s : Scan} {ms : List CurrentMessage}
    (h : Remaining bag codecs s ms) : s.Sound := by
  cases h with
  | between noBuffer front => exact ⟨fun _ => front, fun hne => absurd noBuffer hne⟩
  | within hasBuffer inside => exact ⟨fun hnone => by simp [hasBuffer] at hnone, fun _ => inside⟩

namespace Scan

variable {bag : Bag} {codecs : Codecs} {s s' : Scan} {reach : ℕ} {isOpen : Prop} {ms : List CurrentMessage}

/-- The scan has these messages to give, from its first chunks; behind them it gives more only if it is
open. -/
def Yields (bag : Bag) (codecs : Codecs) (reach : ℕ) (isOpen : Prop) (s : Scan)
    (ms : List CurrentMessage) : Prop :=
  Remaining bag codecs (s.upTo reach) ms ∧ (reach < s.chunksToParse.length → isOpen) ∨ ms = [] ∧ isOpen

theorem Yields.readMessage (h : s.Yields bag codecs reach isOpen ms) {r : Except Fault (Option CurrentMessage)}
    (hread : s.readMessage bag codecs = (s', r)) :
    (∃ c rest, ms = c :: rest ∧ r = .ok (some c) ∧ s'.Yields bag codecs reach isOpen rest) ∨
      ms = [] ∧ (r = .ok none ∨ isOpen) := by
  obtain ⟨hremaining, hopen⟩ | ⟨rfl, hopen⟩ := h
  · rcases hfirst : (s.upTo reach).readMessage bag codecs with ⟨t, e | _ | c⟩
    · exact absurd hremaining (gives_of_readMessage hremaining.sound hfirst _)
    · refine .inr ⟨(gives_of_readMessage hremaining.sound hfirst _).1 hremaining, ?_⟩
      by_cases hreach : reach < s.chunksToParse.length
      · exact .inr (hopen hreach)
      · have hall : s.upTo reach = s := by rw [upTo, List.take_of_length_le (not_lt.1 hreach)]
        rw [hall, hread] at hfirst
        cases hfirst
        exact .inl rfl
    · obtain ⟨rest, rfl, hrest⟩ := (gives_of_readMessage hremaining.sound hfirst _).1 hremaining
      obtain ⟨s'', hs'', rfl⟩ := readMessage_of_upTo hfirst
      rw [hread] at hs''
      cases hs''
      exact .inl ⟨c, rest, rfl, rfl, .inl ⟨hrest, (continues_of_readMessage hread).chunksToParse ▸ hopen⟩⟩
  · exact .inr ⟨rfl, .inr hopen⟩

theorem turnsLeft_readMessage {m : CurrentMessage} (h : s.readMessage bag codecs = (s', .ok (some m))) :
    s'.turnsLeft bag < s.turnsLeft bag := by
  refine iterate_rule (I := fun _ => True)
    (Q := fun s s' r => r = .ok (some m) → s'.turnsLeft bag < s.turnsLeft bag) ?_ ?_ trivial (readMessage_eq h) rfl
  · rintro s s' r - hturn rfl
    rcases turn_cases hturn with ⟨-, -, hr⟩ | ⟨p, -, ⟨-, ⟨⟨_, hr⟩, -⟩ | ⟨_, _, -, -, -, hr, -⟩⟩ |
      ⟨buffer, hbuffer, ⟨hlt, hrecord⟩ | ⟨-, hr, -⟩⟩⟩
    · cases hr
    · cases hr
    · cases hr
    · obtain ⟨p', rfl, ⟨⟨_, hr⟩, -⟩ | ⟨hlt', -⟩⟩ := readRecord_cases hlt hrecord
      · cases hr
      · simp only [turnsLeft, hbuffer]
        omega
    · cases hr
  · exact fun _ hturn => ⟨trivial, fun _ _ ht hr => (ht hr).trans (turn_lt hturn)⟩

theorem readRecord_wanted {buffer : Bytes} {m : CurrentMessage}
    (h : s.readRecord buffer = (s', some (.ok (some m)))) : m.connectionId ∈ s.connectionIds := by
  unfold readRecord at h
  rcases hscan : scanRecord buffer s.processedBytes with ⟨p, e | record⟩
  · simp [hscan] at h
  simp only [hscan] at h
  rcases hheader : readMessageHeader buffer record with e | header
  · simp [hheader] at h
  · simp only [hheader] at h
    split_ifs at h with hop hwanted
    · cases h
      exact hwanted
    · simp at h
    · simp at h
    · simp at h

theorem readMessage_wanted {m : CurrentMessage} (h : s.readMessage bag codecs = (s', .ok (some m))) :
    m.connectionId ∈ s.connectionIds := by
  refine iterate_rule (I := fun t => t.connectionIds = s.connectionIds)
    (Q := fun _ _ r => r = .ok (some m) → m.connectionId ∈ s.connectionIds) ?_ ?_ rfl (readMessage_eq h) rfl
  · rintro t t' r ht hturn rfl
    rcases turn_cases hturn with ⟨-, -, hr⟩ | ⟨p, -, ⟨-, ⟨⟨_, hr⟩, -⟩ | ⟨_, _, -, -, -, hr, -⟩⟩ |
      ⟨buffer, -, ⟨-, hrecord⟩ | ⟨-, hr, -⟩⟩⟩
    · cases hr
    · cases hr
    · cases hr
    · exact ht ▸ readRecord_wanted hrecord
    · cases hr
  · exact fun ht hturn => ⟨(continues_of_turn hturn).connectionIds.trans ht, fun _ _ h => h⟩

end Scan

/-- What a wrapper has to give, at least: it is to be read next, or queued with its current message, or at its
end. -/
def Owed (codecs : Codecs) (bag : Bag) (reach : ℕ) (isOpen : Prop) (queue todo : List ℕ) (p : ℕ) (w : BagWrapper)
    (ms : List CurrentMessage) : Prop :=
  if p ∈ todo then w.scan.Yields bag codecs reach isOpen ms
  else if p ∈ queue then bag.Returns w.current ∧
    ((∃ rest, ms = w.current :: rest ∧ w.scan.Yields bag codecs reach isOpen rest) ∨ ms = [] ∧ isOpen)
  else ms = []

/-- What each bag has to give, at least; `operator*` can return whatever is asked of it. -/
structure Owes (codecs : Codecs) (files : List Bag) (wrapperOf : ℕ → Option ℕ) (reach : ℕ → ℕ) (isOpen : ℕ → Prop)
    (world : World) (queue todo : List ℕ) (owed : ℕ → List CurrentMessage) : Prop where
  noWrapper : ∀ {b}, wrapperOf b = none → owed b = []
  wrapper : ∀ {b p w bag}, wrapperOf b = some p → world.wrappers[p]? = some w → files[b]? = some bag →
    Owed codecs bag (reach b) (isOpen b) queue todo p w (owed b)
  returns : ∀ {b p w bag}, wrapperOf b = some p → world.wrappers[p]? = some w → files[b]? = some bag →
    ∀ c : CurrentMessage, c.connectionId ∈ w.scan.connectionIds → bag.Returns c

section Wrappers

variable {files : List Bag} {wrapperOf : ℕ → Option ℕ} {reach : ℕ → ℕ} {isOpen : ℕ → Prop} {env : Env}
  {world world' : World} {queue queue' todo : List ℕ} {owed : ℕ → List CurrentMessage} {b p : ℕ}

theorem Owes.set {codecs : Codecs} (howes : Owes codecs files wrapperOf reach isOpen world queue (p :: todo) owed)
    (h : Merging files wrapperOf world queue) (hb : wrapperOf b = some p) {w w' : BagWrapper}
    (hw : world.wrappers[p]? = some w) {file : Bag} (hfile : files[b]? = some file)
    (hcontinues : Scan.Continues w.scan w'.scan) (hwrappers : world'.wrappers = world.wrappers.set p w')
    (hqueue : ∀ q, q ≠ p → (q ∈ queue' ↔ q ∈ queue))
    (hself : Owed codecs file (reach b) (isOpen b) queue' todo p w' (owed b)) :
    Owes codecs files wrapperOf reach isOpen world' queue' todo owed := by
  have hat : world'.wrappers[p]? = some w' := by
    rw [hwrappers, List.getElem?_set_self (List.getElem?_eq_some_iff.1 hw).1]
  have hothers : ∀ {q}, q ≠ p → world'.wrappers[q]? = world.wrappers[q]? := fun hq => by
    rw [hwrappers, List.getElem?_set_ne (Ne.symm hq)]
  refine ⟨howes.noWrapper, fun {b' q v file'} hb' hv hfile' => ?_, fun {b' q v file'} hb' hv hfile' => ?_⟩
  · by_cases hq : q = p
    · subst hq
      cases h.eq_of_wrapperOf hb hb'
      rw [hat] at hv
      cases hv
      rw [hfile] at hfile'
      cases hfile'
      exact hself
    · rw [hothers hq] at hv
      have hother := howes.wrapper hb' hv hfile'
      simpa only [Owed, hqueue q hq, List.mem_cons, hq, false_or] using hother
  · by_cases hq : q = p
    · subst hq
      rw [hat] at hv
      cases hv
      rw [hcontinues.connectionIds]
      exact howes.returns hb' hw hfile'
    · rw [hothers hq] at hv
      exact howes.returns hb' hv hfile'

/-- Reading on in a wrapper leaves all that is owed to come; it throws only behind what its bag owes. -/
theorem Owes.readMessage (hcodecs : env.codecs.Throws)
    (howes : Owes env.codecs files wrapperOf reach isOpen world queue (p :: todo) owed)
    (h : Merging files wrapperOf world queue) (hb : wrapperOf b = some p) (hnew : p ∉ queue) (htodo : p ∉ todo) :
    (∃ world' queue', world.readMessage env p queue = (world', .ok queue') ∧
        Owes env.codecs files wrapperOf reach isOpen world' queue' todo owed) ∨
      ∃ world' e, world.readMessage env p queue = (world', .error e) ∧ e.Occurs ∧ owed b = [] ∧ isOpen b := by
  obtain ⟨w, file, hw, hscan, hfile, -⟩ := h.wrapper hb
  obtain ⟨bag, hbag, rfl⟩ := exists_bag_of_files h.files_eq hfile
  have hyields := howes.wrapper hb hw hfile
  have hreturns := howes.returns hb hw hfile
  rw [Owed, if_pos List.mem_cons_self] at hyields
  rw [← hscan] at hbag
  rw [World.readMessage, hw]
  simp only [hbag]
  rcases hread : w.scan.readMessage bag env.codecs with ⟨scan, e | _ | current⟩
  all_goals
    have hcontinues := Scan.continues_of_readMessage hread
    have hcase := hyields.readMessage ((readMessage_file _ _ _).trans hread)
  · obtain ⟨_, _, -, hr, -⟩ | ⟨hnil, hr | hopen⟩ := hcase
    · cases hr
    · cases hr
    · exact .inr ⟨_, e, rfl, Scan.readMessage_error hcodecs hread, hnil, hopen⟩
  · refine .inl ⟨_, queue, rfl, howes.set h hb hw hfile hcontinues rfl (fun _ _ => Iff.rfl) ?_⟩
    rw [Owed, if_neg htodo, if_neg hnew]
    obtain ⟨_, _, -, hr, -⟩ | ⟨hnil, -⟩ := hcase
    · cases hr
    · exact hnil
  · refine .inl ⟨_, _, rfl, howes.set h hb hw hfile hcontinues rfl (fun q hq => ?_) ?_⟩
    · rw [(env.heap.push_perm _ queue p).mem_iff, List.mem_cons, or_iff_right hq]
    · rw [Owed, if_neg htodo, if_pos ((env.heap.push_perm _ queue p).mem_iff.2 List.mem_cons_self)]
      refine ⟨hreturns current (Scan.readMessage_wanted hread), ?_⟩
      obtain ⟨c, rest, hrest, hr, hrestYields⟩ | ⟨hnil, hr | hopen⟩ := hcase
      · cases hr
        exact .inl ⟨rest, hrest, hrestYields⟩
      · cases hr
      · exact .inr ⟨hnil, hopen⟩

theorem Owes.beginLoop {ps : List ℕ} (hcodecs : env.codecs.Throws)
    (howes : Owes env.codecs files wrapperOf reach isOpen world queue ps owed)
    (h : Merging files wrapperOf world queue) (hnodup : ps.Nodup) (hnew : ∀ p ∈ ps, p ∉ queue)
    (hmem : ∀ p ∈ ps, ∃ b, wrapperOf b = some p)
    (hfront : ∀ p ∈ ps, ∀ w, world.wrappers[p]? = some w → w.scan.chunkIter = 0) :
    (∃ world' queue', world.beginLoop env ps queue = (world', .ok queue') ∧
        Owes env.codecs files wrapperOf reach isOpen world' queue' [] owed) ∨
      ∃ world' e b p, world.beginLoop env ps queue = (world', .error e) ∧ e.Occurs ∧ wrapperOf b = some p ∧
        owed b = [] ∧ isOpen b := by
  induction ps generalizing world queue with
  | nil => exact .inl ⟨world, queue, rfl, howes⟩
  | cons p ps ih =>
    obtain ⟨b, hb⟩ := hmem p List.mem_cons_self
    obtain ⟨w, _, hw, -⟩ := h.wrapper hb
    obtain ⟨hp, hps⟩ := List.nodup_cons.1 hnodup
    have hpq := hnew p List.mem_cons_self
    have hreset := World.resetIter_eq hw (hfront p List.mem_cons_self w hw)
    obtain ⟨world₁, queue₁, hread, howes₁⟩ | ⟨world₁, e, hread, hoccurs, hnil, hopen⟩ :=
      howes.readMessage hcodecs h hb hpq hp
    · obtain ⟨hnext, ⟨hother, hqueue⟩, -⟩ := h.readMessage hb hpq hread
      have hne : ∀ q ∈ ps, q ≠ p := by
        rintro q hq rfl
        exact hp hq
      have hloop := ih howes₁ hnext hps
        (fun q hq => by rw [hqueue q (hne q hq)]; exact hnew q (List.mem_cons_of_mem _ hq))
        (fun q hq => hmem q (List.mem_cons_of_mem _ hq))
        (fun q hq w hw => by
          rw [hother q (hne q hq)] at hw
          exact hfront q (List.mem_cons_of_mem _ hq) w hw)
      rw [World.beginLoop, hreset]
      simp only [hread]
      exact hloop
    · refine .inr ⟨world₁, e, b, p, ?_, hoccurs, hb, hnil, hopen⟩
      rw [World.beginLoop, hreset]
      simp only [hread]

theorem Owes.head (howes : Owes env.codecs files wrapperOf reach isOpen world queue [] owed)
    (h : Merging files wrapperOf world queue) {c : CurrentMessage} {rest : List CurrentMessage}
    (hc : owed b = c :: rest) : ∃ p w, p ∈ queue ∧ world.wrappers[p]? = some w ∧ w.current = c := by
  rcases hb : wrapperOf b with _ | p
  · rw [howes.noWrapper hb] at hc
    cases hc
  · obtain ⟨w, file, hw, -, hfile, -⟩ := h.wrapper hb
    have hself := howes.wrapper hb hw hfile
    rw [Owed, if_neg List.not_mem_nil, hc] at hself
    split_ifs at hself with hp
    obtain ⟨-, ⟨rest', heq, -⟩ | ⟨hnil, -⟩⟩ := hself
    · cases heq
      exact ⟨p, w, hp, hw, rfl⟩
    · cases hnil

theorem Owes.eq_nil {codecs : Codecs} (howes : Owes codecs files wrapperOf reach isOpen world [] [] owed)
    (h : Merging files wrapperOf world queue) (b : ℕ) : owed b = [] := by
  rcases hb : wrapperOf b with _ | p
  · exact howes.noWrapper hb
  · obtain ⟨w, file, hw, -, hfile, -⟩ := h.wrapper hb
    have hself := howes.wrapper hb hw hfile
    rwa [Owed, if_neg List.not_mem_nil, if_neg List.not_mem_nil] at hself

theorem Owes.pop (howes : Owes env.codecs files wrapperOf reach isOpen world (p :: queue) [] owed)
    (h : Merging files wrapperOf world (p :: queue)) (hb : wrapperOf b = some p) {w : BagWrapper}
    (hw : world.wrappers[p]? = some w) :
    (∃ rest, owed b = w.current :: rest ∧
        Owes env.codecs files wrapperOf reach isOpen world (env.heap.pop world.compare (p :: queue)) [p]
          (Function.update owed b rest)) ∨
      owed b = [] ∧ isOpen b ∧
        Owes env.codecs files wrapperOf reach isOpen world (env.heap.pop world.compare (p :: queue)) [p] owed := by
  obtain ⟨_, file, hw', -, hfile, -⟩ := h.wrapper hb
  rw [hw] at hw'
  cases hw'
  have hself := howes.wrapper hb hw hfile
  rw [Owed, if_neg List.not_mem_nil, if_pos List.mem_cons_self] at hself
  have hperm := env.heap.pop_perm world.compare p queue
  have hpopped : ∀ owed', (∀ b', b' ≠ b → owed' b' = owed b') →
      w.scan.Yields file env.codecs (reach b) (isOpen b) (owed' b) →
      Owes env.codecs files wrapperOf reach isOpen world (env.heap.pop world.compare (p :: queue)) [p] owed' := by
    intro owed' hothers hyields
    refine ⟨fun {b'} hb' => ?_, fun {b' q v file'} hb' hv hfile' => ?_, howes.returns⟩
    · have hne : b' ≠ b := by
        rintro rfl
        rw [hb] at hb'
        cases hb'
      rw [hothers b' hne, howes.noWrapper hb']
    · by_cases hq : q = p
      · subst hq
        cases h.eq_of_wrapperOf hb hb'
        rw [hw] at hv
        cases hv
        rw [hfile] at hfile'
        cases hfile'
        rw [Owed, if_pos List.mem_cons_self]
        exact hyields
      · have hne : b' ≠ b := by
          rintro rfl
          rw [hb] at hb'
          exact hq (Option.some.inj hb').symm
        have hother := howes.wrapper hb' hv hfile'
        simpa only [hothers b' hne, Owed, hperm.mem_iff, List.mem_cons, hq, false_or, List.not_mem_nil]
          using hother
  obtain ⟨-, ⟨rest, hrest, hyields⟩ | ⟨hnil, hopen⟩⟩ := hself
  · refine .inl ⟨rest, hrest, hpopped _ (fun b' hne => Function.update_of_ne hne ..) ?_⟩
    rw [Function.update_self]
    exact hyields
  · exact .inr ⟨hnil, hopen, hpopped owed (fun _ _ => rfl) (.inr ⟨hnil, hopen⟩)⟩

def World.turnsLeft (files : List Bag) (queue : List ℕ) (world : World) : ℕ :=
  (queue.map fun p => (world.wrappers[p]?).elim 0 fun w =>
    (files[w.scan.bag]?).elim 0 (Scan.turnsLeft · w.scan) + 1).sum

theorem Merging.turnsLeft_lt (h : Merging files wrapperOf world (p :: queue))
    (hread : world.readMessage env p (env.heap.pop world.compare (p :: queue)) = (world', .ok queue')) :
    world'.turnsLeft files queue' < world.turnsLeft files (p :: queue) := by
  obtain ⟨w, bag, scan, hw, hbag, -, hcase⟩ := World.readMessage_ok hread
  have hfile : files[w.scan.bag]? = some bag.file := h.files_eq ▸ files_getElem? hbag
  have hperm := env.heap.pop_perm world.compare p queue
  have hp : p < world.wrappers.length := (List.getElem?_eq_some_iff.1 hw).1
  have hothers : ∀ w', world'.wrappers = world.wrappers.set p w' →
      world'.turnsLeft files queue = world.turnsLeft files queue := by
    intro w' hwrappers
    refine congrArg List.sum (List.map_congr_left fun q hq => ?_)
    have hne : p ≠ q := by
      rintro rfl
      exact (List.nodup_cons.1 h.nodup).1 hq
    rw [hwrappers, List.getElem?_set_ne hne]
  have hfront : world.turnsLeft files (p :: queue) = w.scan.turnsLeft bag + 1 + world.turnsLeft files queue := by
    simp only [World.turnsLeft, List.map_cons, List.sum_cons, hw, hfile, Option.elim_some]
    rfl
  rw [hfront]
  rcases hcase with ⟨-, hwrappers, rfl⟩ | ⟨current, hread, hwrappers, hqueue⟩
  · have hsum : world'.turnsLeft files (env.heap.pop world.compare (p :: queue)) = world'.turnsLeft files queue :=
      (hperm.map _).sum_eq
    rw [hsum, hothers _ hwrappers]
    omega
  · have hpush : queue'.Perm (p :: queue) := by
      rw [hqueue]
      exact (env.heap.push_perm _ _ _).trans (hperm.cons p)
    have hsum : world'.turnsLeft files queue' = world'.turnsLeft files (p :: queue) := (hpush.map _).sum_eq
    have hself : world'.wrappers[p]? = some { scan, current } := by
      rw [hwrappers, List.getElem?_set_self hp]
    have hscan : scan.bag = w.scan.bag := (Scan.continues_of_readMessage hread).bag
    have hnew : world'.turnsLeft files (p :: queue) = scan.turnsLeft bag + 1 + world'.turnsLeft files queue := by
      simp only [World.turnsLeft, List.map_cons, List.sum_cons, hself, hscan, hfile, Option.elim_some]
      rfl
    have hlt := Scan.turnsLeft_readMessage hread
    rw [hsum, hnew, hothers _ hwrappers]
    omega

def Serves (files : List Bag) (owed : ℕ → List CurrentMessage) (streams : ℕ → List RosMessage) : Prop :=
  ∀ b, List.Forall₂ (fun c m => ∃ file, files[b]? = some file ∧ file.Returns c ∧ file.message c = some m)
    (owed b) (streams b)

/-- How a loop that takes messages from an iterator ends, with the message that is in hand then: at `end()`,
or in `operator++`. -/
inductive LoopEnds (env : Env) : World × Iterator → List (ℕ × RosMessage) → Option Fault → Prop
  | atEnd {st : World × Iterator} (h : st.2.atEnd) : LoopEnds env st [] none
  | advance {world world' : World} {it : Iterator} {m : RosMessage} {st : World × Iterator} {e : Fault}
    (hderef : it.deref env world = (world', .ok m)) (h : it.advance env world' = (st, .error e)) :
    LoopEnds env (world, it) [(it.frontBag world, m)] (some e)

variable {streams : ℕ → List RosMessage}

theorem Serves.eq_nil (h : Serves files owed streams) (hb : owed b = []) : streams b = [] := by
  have hserve := h b
  rwa [hb, List.forall₂_nil_left_iff] at hserve

theorem Serves.cons (h : Serves files owed streams) {c : CurrentMessage} {rest : List CurrentMessage}
    (hb : owed b = c :: rest) {file : Bag} (hfile : files[b]? = some file) :
    ∃ m ms, streams b = m :: ms ∧ file.Returns c ∧ file.message c = some m ∧
      Serves files (Function.update owed b rest) (Function.update streams b ms) := by
  have hserve := h b
  rw [hb] at hserve
  obtain ⟨m, ms, ⟨_, hfile', hreturns, hm⟩, hrest, hstream⟩ := List.forall₂_cons_left_iff.1 hserve
  rw [hfile] at hfile'
  cases hfile'
  refine ⟨m, ms, hstream, hreturns, hm, fun j => ?_⟩
  by_cases hj : j = b
  · subst hj
    rw [Function.update_self, Function.update_self]
    exact hrest
  · rw [Function.update_of_ne hj, Function.update_of_ne hj]
    exact h j

/-- Nothing that is owed is earlier than the message at the front of the queue. -/
theorem Owes.least (howes : Owes env.codecs files wrapperOf reach isOpen world (p :: queue) [] owed)
    (h : Merging files wrapperOf world (p :: queue)) (hserves : Serves files owed streams) {w : BagWrapper}
    (hw : world.wrappers[p]? = some w) {m : RosMessage} (hm : m.timestamp = w.current.timestamp) :
    ∀ j m' ms, streams j = m' :: ms → m.key ≤ m'.key := by
  intro j m' ms hj
  have hserve := hserves j
  rw [hj] at hserve
  obtain ⟨c, _, ⟨_, -, -, hc⟩, -, hcs⟩ := List.forall₂_cons_right_iff.1 hserve
  obtain ⟨q, v, hq, hv, rfl⟩ := howes.head h hcs
  have hle := h.heap.front (World.strictWeak_compare _) q hq
  rw [World.compare, timestampCompare_eq_false_iff] at hle
  rw [RosMessage.key, RosMessage.key, hm, Bag.message_timestamp hc]
  simpa [World.timestamp, hw, hv] using hle

theorem Owes.deref (it : Iterator)
    (howes : Owes env.codecs files wrapperOf reach isOpen world it.msgQueue [] owed)
    (h : Merging files wrapperOf world it.msgQueue) (hsound : world.SchemataSound)
    (hserves : Serves files owed streams) (hqueue : it.msgQueue = p :: queue) (hb : wrapperOf b = some p) :
    ∃ world₁ m owed' left, it.deref env world = (world₁, .ok m) ∧ world₁.SchemataSound ∧
      Merging files wrapperOf world₁ (p :: queue) ∧ world₁.wrappers = world.wrappers ∧
      Owes env.codecs files wrapperOf reach isOpen world₁ (env.heap.pop world₁.compare (p :: queue)) [p] owed' ∧
      Serves files owed' left ∧ Takes RosMessage.key isOpen streams [(it.frontBag world, m)] left := by
  obtain ⟨w, file, hw, hscan, hfile, -⟩ := h.wrapper hb
  obtain ⟨bag, hbag, rfl⟩ := exists_bag_of_files h.files_eq hfile
  have hfront : it.frontBag world = b := by simp [Iterator.frontBag, hqueue, hw, hscan]
  have hself := howes.wrapper hb hw hfile
  rw [Owed, if_neg List.not_mem_nil, hqueue, if_pos List.mem_cons_self] at hself
  obtain ⟨world₁, m, hderef⟩ := h.exists_deref env hsound hqueue hb hw hfile hself.1
  obtain ⟨p', queue', w', bag₁, bag', hqueue', hw', hbag₁, hshows, hdef, rfl⟩ := Iterator.deref_ok hderef
  rw [hqueue] at hqueue'
  cases hqueue'
  rw [hw] at hw'
  cases hw'
  rw [hscan, hbag] at hbag₁
  cases hbag₁
  obtain ⟨hcache, hschema⟩ := (hsound bag (List.mem_of_getElem? hbag)).msgDefForTopic hdef
  have hmessage : bag.file.message w.current = some m := hshows.message (hschema _ rfl)
  rw [hqueue] at h howes
  have hleast := howes.least h hserves hw hshows.timestamp
  have hderefed := h.deref (hscan ▸ hbag) (Bag.file_of_msgDefForTopic hdef)
  have howes₁ : Owes env.codecs files wrapperOf reach isOpen
      { world with bags := world.bags.set w.scan.bag bag' } (p :: queue) [] owed :=
    ⟨howes.noWrapper, howes.wrapper, howes.returns⟩
  rw [hfront]
  obtain ⟨rest, hrest, hpopped⟩ | ⟨hnil, hopen, hpopped⟩ := howes₁.pop hderefed hb hw
  · obtain ⟨m', ms, hstream, -, hm', hrestServes⟩ := hserves.cons hrest hfile
    rw [hmessage] at hm'
    cases hm'
    exact ⟨_, m, _, Function.update streams b ms, hderef, hsound.set hcache, hderefed, rfl, hpopped,
      hrestServes, .next hstream hleast .refl⟩
  · exact ⟨_, m, owed, streams, hderef, hsound.set hcache, hderefed, rfl, hpopped, hserves,
      .more hopen (hserves.eq_nil hnil) hleast .refl⟩

/-- The loop comes to an end; the induction is on the turns that are left, and each takes one message of what
is owed or from behind it. -/
theorem Owes.exists_ends (it : Iterator) (hcodecs : env.codecs.Throws)
    (howes : Owes env.codecs files wrapperOf reach isOpen world it.msgQueue [] owed)
    (h : Merging files wrapperOf world it.msgQueue) (hsound : world.SchemataSound)
    (hserves : Serves files owed streams) :
    ∃ out st' last fault left, Steps env (world, it) out st' ∧ LoopEnds env st' last fault ∧
      Takes RosMessage.key isOpen streams (out ++ last) left ∧ (fault = none → ∀ b, left b = []) ∧
      ∀ e, fault = some e → e.Occurs ∧ ∃ b p, wrapperOf b = some p ∧ isOpen b ∧ left b = [] := by
  generalize hn : world.turnsLeft files it.msgQueue = n
  induction n using Nat.strongRecOn generalizing world it owed streams with
  | ind n ih =>
    rcases hqueue : it.msgQueue with _ | ⟨p, queue⟩
    · have hend : it.atEnd := by simp [Iterator.atEnd, hqueue]
      rw [hqueue] at howes
      exact ⟨[], (world, it), [], none, streams, .refl, .atEnd hend, .refl,
        fun _ b => hserves.eq_nil (howes.eq_nil h b), fun e he => by cases he⟩
    obtain ⟨b, hb⟩ := h.mem (p := p) (by simp [hqueue])
    obtain ⟨world₁, m, owed', left, hderef, hsound₁, hmerging, hwrappers, howes₁, hserves₁, htakes⟩ :=
      howes.deref it h hsound hserves hqueue hb
    obtain ⟨hpopped, hnew⟩ := hmerging.pop env
    obtain ⟨world₂, queue₂, hread, howes₂⟩ | ⟨world₂, e, hread, hoccurs, hnil, hopen⟩ :=
      howes₁.readMessage hcodecs hpopped hb hnew List.not_mem_nil
    · obtain ⟨hnext, -, -⟩ := hpopped.readMessage hb hnew hread
      have hsound₂ : world₂.SchemataSound := by
        have hbags := World.readMessage_bags env p (env.heap.pop world₁.compare (p :: queue)) world₁
        rw [hread] at hbags
        exact fun bag hbag => hsound₁ bag (by rwa [← hbags])
      have hlt := hmerging.turnsLeft_lt hread
      have hsame : world₁.turnsLeft files (p :: queue) = world.turnsLeft files (p :: queue) := by
        rw [World.turnsLeft, World.turnsLeft, hwrappers]
      have hadvance : it.advance env world₁ = ((world₂, ⟨queue₂⟩), .ok ()) := by
        rw [Iterator.advance, hqueue]
        simp only [hread]
      obtain ⟨out, st', last, fault, left', hsteps, hends, htakes', hleft⟩ :=
        ih _ (by rw [← hn, hqueue, ← hsame]; exact hlt) ⟨queue₂⟩ howes₂ hnext hsound₂ hserves₁ rfl
      exact ⟨_, st', last, fault, left', .step hderef hadvance hsteps, hends, htakes.trans htakes', hleft⟩
    · have hadvance : it.advance env world₁ = ((world₂, ⟨env.heap.pop world₁.compare (p :: queue)⟩), .error e) := by
        rw [Iterator.advance, hqueue]
        simp only [hread]
      refine ⟨[], (world, it), _, some e, left, .refl, .advance hderef hadvance, htakes,
        fun he => absurd he (Option.some_ne_none e), fun e' he => ?_⟩
      cases he
      exact ⟨hoccurs, b, p, hb, hopen, hserves₁.eq_nil hnil⟩

end Wrappers

/-- What a loop over a view comes with, in this order of its map, and the exception that ends it. -/
inductive View.Loop (env : Env) (selection : View.Selection) (view : View) (world : World) (order : List ℕ) :
    List (ℕ × RosMessage) → Option Fault → Prop
  | begin {world' : World} {e : Fault}
    (h : (view.getMessages selection world).1.begin env order = (world', .error e)) :
    Loop env selection view world order [] (some e)
  | steps {st st' : World × Iterator} {out last : List (ℕ × RosMessage)} {fault : Option Fault}
    (hbegin : (view.getMessages selection world).1.begin env order = (st.1, .ok st.2))
    (hsteps : Steps env st out st') (hends : LoopEnds env st' last fault) :
    Loop env selection view world order (out ++ last) fault

/-- The bags that were opened are those recorded of these messages, with noise in the data of their chunks. -/
structure World.DamagedFrom (world : World) (codecs : Codecs) (files : List StoredBag) (noise : ℕ → ℕ → Bytes)
    (xs : ℕ → List Published) : Prop where
  opened : world.OpenedFrom (files.mapIdx fun b f => f.toBagFile.damage (noise b))
  records : ∀ (b : ℕ) (f : StoredBag), files[b]? = some f → f.Decompresses codecs ∧ f.Records (xs b)

def intact (files : List StoredBag) (reach : ℕ → ℕ) (xs : ℕ → List Published) (b : ℕ) : List Published :=
  (xs b).take ((files[b]?).elim 0 fun f => f.messagesBefore (reach b))

def GoesOn (files : List StoredBag) (selection : View.Selection) (reach : ℕ → ℕ) (b : ℕ) : Prop :=
  ∃ f, files[b]? = some f ∧ ∃ k ≥ reach b, f.Selects selection k

theorem BagFile.Opens.of_file {f : BagFile} {bag : Bag} (h : f.Opens bag) : f.Opens bag.file where
  file := h.file
  schemata topic schema hlookup := by simp [Bag.file] at hlookup

section Damaged

variable {env : Env} {selection : View.Selection} {view : View} {world : World} {files : List StoredBag}
  {noise : ℕ → ℕ → Bytes} {xs : ℕ → List Published} {reach : ℕ → ℕ}

theorem World.DamagedFrom.exists_file {codecs : Codecs} (h : world.DamagedFrom codecs files noise xs) {b : ℕ}
    {bag : Bag} (hbag : world.bags[b]? = some bag) :
    ∃ f, files[b]? = some f ∧ (f.toBagFile.damage (noise b)).Opens bag.file ∧ f.Decompresses codecs ∧
      f.Records (xs b) := by
  obtain ⟨f', hf', hopens⟩ := h.opened.opens hbag
  rw [List.getElem?_mapIdx, Option.map_eq_some_iff] at hf'
  obtain ⟨f, hf, rfl⟩ := hf'
  exact ⟨f, hf, hopens.of_file, h.records b f hf⟩

theorem World.DamagedFrom.returns {codecs : Codecs} (h : world.DamagedFrom codecs files noise xs) {b : ℕ} {bag : Bag}
    (hbag : world.bags[b]? = some bag) {c : CurrentMessage}
    (hc : c.connectionId ∈ (View.wrapper selection b bag).scan.connectionIds) : bag.file.Returns c := by
  obtain ⟨f, -, hopens, -⟩ := h.exists_file hbag
  have hsame := hopens.sameRecords f.opens_bag
  rw [← View.wrapper_file, hsame.wrapper] at hc
  exact hsame.returns (StoredBag.returns_of_wanted f.opens_bag hc)

theorem World.DamagedFrom.exists_owed (h : world.DamagedFrom env.codecs files noise xs)
    (hindexed : ∀ topics, selection = .topics topics → ∀ f ∈ files, f.Indexed)
    {b : ℕ} {bag : Bag} (hbag : world.bags[b]? = some bag)
    (hwhole : ∀ f, files[b]? = some f → f.WholeUpTo (noise b) selection (reach b)) :
    ∃ n ms ys,
      (View.wrapper selection b bag).scan.Yields bag.file env.codecs n (GoesOn files selection reach b) ms ∧
      List.Forall₂ (fun c m => ∃ file, world.files[b]? = some file ∧ file.Returns c ∧ file.message c = some m)
        ms ys ∧
      List.Forall₂ RosMessage.Carries ys ((intact files reach xs b).filter fun x => selection.wants x.topic) := by
  obtain ⟨f, hf, hopens, hcodecs, hrecords⟩ := h.exists_file hbag
  obtain ⟨n, ms, hremaining, hreturns, hread, hopen⟩ := hrecords.exists_intact hopens hcodecs
    (fun topics ht => hindexed topics ht f (List.mem_of_getElem? hf)) (hwhole f hf) b
  have hfile := files_getElem? hbag
  obtain ⟨ys, hys⟩ : ∃ ys, List.Forall₂ (fun c m => ∃ file, world.files[b]? = some file ∧ file.Returns c ∧
      file.message c = some m) ms ys := by
    refine exists_forall₂ fun c hc => ?_
    obtain ⟨connection, -, hconnection, -⟩ := hreturns c hc
    obtain ⟨m, hm⟩ : ∃ m, bag.file.message c = some m := by
      rw [Bag.message, hconnection]
      exact ⟨_, rfl⟩
    exact ⟨m, bag.file, hfile, hreturns c hc, hm⟩
  refine ⟨n, ms, ys, .inl ⟨?_, fun hlt => ?_⟩, hys, ?_⟩
  · rwa [View.wrapper_file] at hremaining
  · rw [← View.wrapper_file] at hlt
    exact ⟨f, hf, hopen hlt⟩
  · have hsame := hopens.sameRecords f.opens_bag
    rw [intact, hf, Option.elim_some]
    refine StoredBag.ReadAs.carries f.opens_bag hread (hys.imp ?_)
    rintro c m ⟨_, hfile', -, hm⟩
    rw [hfile] at hfile'
    cases hfile'
    rwa [← hsame.message]

theorem View.mem_bags_of_wrapperOf (hbags : ∀ b ∈ view.bags, b < world.bags.length) {b p : ℕ}
    (hb : wrapperOf selection view world b = some p) : b ∈ view.bags := by
  by_contra hne
  rw [(wrapperOf_eq_none_iff selection hbags).2 hne] at hb
  cases hb

theorem World.DamagedFrom.exists_owes (h : world.DamagedFrom env.codecs files noise xs)
    (hbags : ∀ b ∈ view.bags, b < world.bags.length)
    (hindexed : ∀ topics, selection = .topics topics → ∀ f ∈ files, f.Indexed)
    (hwhole : ∀ b ∈ view.bags, ∀ f, files[b]? = some f → f.WholeUpTo (noise b) selection (reach b))
    {order : List ℕ} (horder : order.Perm (view.getMessages selection world).2.wrappers) :
    ∃ n owed streams, Owes env.codecs world.files (View.wrapperOf selection view world) n
        (GoesOn files selection reach) (view.getMessages selection world).1 [] order owed ∧
      Serves world.files owed streams ∧
      ∀ b, List.Forall₂ RosMessage.Carries (streams b) (view.published selection (intact files reach xs) b) := by
  have hstream : ∀ b, ∃ n ms ys, (b ∉ view.bags → ms = []) ∧
      (b ∈ view.bags → ∀ bag, world.bags[b]? = some bag →
        (View.wrapper selection b bag).scan.Yields bag.file env.codecs n (GoesOn files selection reach b) ms) ∧
      List.Forall₂ (fun c m => ∃ file, world.files[b]? = some file ∧ file.Returns c ∧ file.message c = some m)
        ms ys ∧
      List.Forall₂ RosMessage.Carries ys (view.published selection (intact files reach xs) b) := by
    intro b
    unfold View.published
    by_cases hb : b ∈ view.bags
    · have hbag := List.getElem?_eq_getElem (hbags b hb)
      obtain ⟨n, ms, ys, hyields, hys, hcarries⟩ := h.exists_owed hindexed hbag (hwhole b hb)
      refine ⟨n, ms, ys, fun hne => absurd hb hne, fun _ bag hbag' => ?_, hys, by rwa [if_pos hb]⟩
      rw [hbag] at hbag'
      cases hbag'
      exact hyields
    · exact ⟨0, [], [], fun _ => rfl, fun h => absurd h hb, .nil, by rw [if_neg hb]; exact .nil⟩
  choose n owed streams hnone hyields hserves hcarries using hstream
  refine ⟨n, owed, streams, ⟨fun hb => hnone _ ((View.wrapperOf_eq_none_iff selection hbags).1 hb),
    fun {b p w file} hb hw hfile => ?_, fun {b p w file} hb hw hfile c hc => ?_⟩, hserves, hcarries⟩
  all_goals
    obtain ⟨bag, hbag, hw'⟩ := (View.wrapped_getMessages selection hbags).wrapper hb
    rw [hw] at hw'
    cases hw'
    rw [files_getElem? hbag] at hfile
    cases hfile
  · rw [Owed, if_pos (horder.mem_iff.2 (View.mem_wrappers_iff.2 ⟨b, hb⟩))]
    exact hyields b (View.mem_bags_of_wrapperOf hbags hb) bag hbag
  · exact h.returns hbag hc

theorem View.exists_loop (hcodecs : env.codecs.Throws) (hdamaged : world.DamagedFrom env.codecs files noise xs)
    (hbags : ∀ b ∈ view.bags, b < world.bags.length)
    (hindexed : ∀ topics, selection = .topics topics → ∀ f ∈ files, f.Indexed)
    (hwhole : ∀ b ∈ view.bags, ∀ f, files[b]? = some f → f.WholeUpTo (noise b) selection (reach b))
    {order : List ℕ} (horder : order.Perm (view.getMessages selection world).2.wrappers) :
    ∃ out fault streams left, view.Loop env selection world order out fault ∧
      (∀ b, List.Forall₂ RosMessage.Carries (streams b)
        (view.published selection (intact files reach xs) b)) ∧
      Takes RosMessage.key (GoesOn files selection reach) streams out left ∧
      (fault = none → ∀ b, left b = []) ∧
      ∀ e, fault = some e → e.Occurs ∧ ∃ b ∈ view.bags, GoesOn files selection reach b ∧ left b = [] := by
  obtain ⟨n, owed, streams, howes, hserves, hcarries⟩ := hdamaged.exists_owes hbags hindexed hwhole horder
  have hwrapped := wrapped_getMessages selection hbags
  have hmerging : Merging world.files (wrapperOf selection view world) (view.getMessages selection world).1 [] :=
    merging_getMessages hbags
  have hnodup := horder.nodup_iff.2 hwrapped.nodup
  have hmem : ∀ p ∈ order, ∃ b, wrapperOf selection view world b = some p :=
    fun p hp => mem_wrappers_iff.1 (horder.mem_iff.1 hp)
  have hfront : ∀ p ∈ order, ∀ w, (view.getMessages selection world).1.wrappers[p]? = some w →
      w.scan.chunkIter = 0 :=
    fun p hp w hw => front_getMessages hbags (horder.mem_iff.1 hp) hw
  obtain ⟨world', queue, hloop, howes'⟩ | ⟨world', e, b, p, hloop, hoccurs, hb, hnil, hopen⟩ :=
    howes.beginLoop hcodecs hmerging hnodup (by simp) hmem hfront
  · obtain ⟨hmerging', -⟩ := hmerging.beginLoop hnodup (by simp) hmem hfront hloop
    have hsound : world'.SchemataSound := by
      have hbegun := World.beginLoop_bags env order [] (view.getMessages selection world).1
      rw [hloop, hwrapped.bags] at hbegun
      intro bag hbag
      exact hdamaged.opened.schemataSound bag (hbegun ▸ hbag)
    obtain ⟨out, st', last, fault, left, hsteps, hends, htakes, hatEnd, hthrown⟩ :=
      howes'.exists_ends ⟨queue⟩ hcodecs hmerging' hsound hserves
    have hbegin : (view.getMessages selection world).1.begin env order = (world', .ok ⟨queue⟩) := by
      rw [World.begin, hloop]
    refine ⟨_, fault, streams, left, .steps hbegin hsteps hends, hcarries, htakes, hatEnd, fun e he => ?_⟩
    obtain ⟨hoccurs, b, p, hb, hopen, hleft⟩ := hthrown e he
    exact ⟨hoccurs, b, mem_bags_of_wrapperOf hbags hb, hopen, hleft⟩
  · have hbegin : (view.getMessages selection world).1.begin env order = (world', .error e) := by
      rw [World.begin, hloop]
    refine ⟨[], some e, streams, streams, .begin hbegin, hcarries, .refl,
      fun he => absurd he (Option.some_ne_none e), fun e' he => ?_⟩
    cases he
    exact ⟨hoccurs, b, mem_bags_of_wrapperOf hbags hb, hopen, hserves.eq_nil hnil⟩

def chunkCount (files : List StoredBag) (b : ℕ) : ℕ := (files[b]?).elim 0 fun f => f.chunks.length

theorem not_goesOn_chunkCount (b : ℕ) : ¬ GoesOn files selection (chunkCount files) b := by
  rintro ⟨f, hf, k, hk, chunk, hchunk, -⟩
  rw [chunkCount, hf, Option.elim_some] at hk
  exact absurd (List.getElem?_eq_some_iff.1 hchunk).1 (not_lt.2 hk)

theorem intact_chunkCount {b : ℕ} {f : StoredBag} (hf : files[b]? = some f) (h : f.Records (xs b)) :
    intact files (chunkCount files) xs b = xs b := by
  have hlength : f.chunks.length = f.contents.length := f.stored.length_eq
  have hall : f.messagesBefore f.chunks.length = (xs b).length := by
    rw [StoredBag.messagesBefore, hlength, List.take_length]
    exact h.messages.length_eq
  rw [intact, chunkCount, hf, Option.elim_some, Option.elim_some, hall, List.take_length]

theorem View.exists_unseen (hcodecs : env.codecs.Throws) (hdamaged : world.DamagedFrom env.codecs files noise xs)
    (hbags : ∀ b ∈ view.bags, b < world.bags.length)
    (hindexed : ∀ topics, selection = .topics topics → ∀ f ∈ files, f.Indexed)
    (hunseen : ∀ b ∈ view.bags, ∀ f, files[b]? = some f → ∀ k, f.Selects selection k → noise b k = [])
    {order : List ℕ} (horder : order.Perm (view.getMessages selection world).2.wrappers) :
    ∃ st out st' merged, (view.getMessages selection world).1.begin env order = (st.1, .ok st.2) ∧
      Steps env st out st' ∧ st'.2.atEnd ∧ IsMerge Published.key (view.published selection xs) merged ∧
      List.Forall₂ (fun x y => y.1 = x.1 ∧ x.2.Carries y.2 ∧ x.2.Reads y.2) out merged := by
  have hreach : ∀ b ∈ view.bags, ∀ f, files[b]? = some f →
      f.WholeUpTo (noise b) selection (chunkCount files b) := fun b hb f hf k _ hk => hunseen b hb f hf k hk
  obtain ⟨out, fault, streams, left, hloop, hcarries, htakes, hend, hthrown⟩ :=
    exists_loop hcodecs hdamaged hbags hindexed hreach horder
  have hnone : fault = none := by
    rcases fault with _ | e
    · rfl
    · obtain ⟨-, b, -, hopen, -⟩ := hthrown e rfl
      exact absurd hopen (not_goesOn_chunkCount b)
  subst hnone
  have hmerge := htakes.isMerge not_goesOn_chunkCount (hend rfl)
  obtain ⟨merged, hmerged, hall⟩ := hmerge.exists_forall₂ (fun m x hx => congrArg TimeValue.key hx.timestamp.symm)
    fun b => hcarries b
  have hwhole : view.published selection (intact files (chunkCount files) xs) = view.published selection xs := by
    funext b
    unfold published
    split_ifs with hb
    · obtain ⟨f, hf, -, -, hrecords⟩ := hdamaged.exists_file (List.getElem?_eq_getElem (hbags b hb))
      rw [intact_chunkCount hf hrecords]
    · rfl
  rw [hwhole] at hmerged
  cases hloop with
  | steps hbegin hsteps hends =>
    cases hends with
    | atEnd hatEnd =>
      rw [List.append_nil] at hall
      exact ⟨_, _, _, merged, hbegin, hsteps, hatEnd, hmerged, hall.imp fun _ _ h => ⟨h.1, h.2, h.2.reads⟩⟩

/-! ### With the context of the process -/

theorem SharedEnv.throws_codecs (env : SharedEnv) (context : env.lz4.Context) : (env.codecs context).Throws :=
  ⟨fun _ _ _ => Lz4f.decompressLz4Chunk_error, fun _ _ _ => Bz2.decompressBz2Chunk_error⟩

def BagFile.Lz4ChunksRead (P : Bytes → ℕ → Prop) (f : BagFile) (selection : View.Selection) : Prop :=
  ∀ k c, f.Selects selection k → f.chunks[k]? = some c → c.compression = bytes "lz4" → P c.record.data c.size

def BagFile.FramesRead (IsFrame : Bytes → Bytes → Prop) (f : BagFile) (selection : View.Selection) : Prop :=
  f.Lz4ChunksRead (Lz4f.EndsWithFrame IsFrame) selection

def Lz4f.EndsOrThrows (lz4 : Lz4f) (IsFrame : Bytes → Bytes → Prop) (stored : Bytes) (size : ℕ) : Prop :=
  EndsWithFrame IsFrame stored size ∨ ∃ e, (lz4.decompressLz4Chunk lz4.created stored size).2.2 = .error e

theorem BagFile.Opens.settles {env : SharedEnv} {IsFrame : Bytes → Bytes → Prop} {f : BagFile} {bag : Bag}
    (h : f.Opens bag) {i : ℕ} {chunk : Chunk} (hchunk : bag.chunks[i]? = some chunk)
    (hsettles : ∀ c, f.chunks[f.chunkOf i]? = some c → c.compression = bytes "lz4" →
      env.lz4.EndsOrThrows IsFrame c.record.data c.size) :
    chunk.Settles env IsFrame True bag.bagBytes := by
  obtain ⟨c, hc, hcompression, hsize, hdata⟩ := h.exists_stored hchunk
  by_cases hlz4 : c.compression = bytes "lz4"
  · rcases hsettles c hc hlz4 with hends | ⟨e, he⟩
    · exact .inl (h.endsWithFrame hchunk fun c' hc' _ => by
        rw [hc] at hc'
        cases hc'
        exact hends)
    · refine .inr ⟨trivial, e, ?_⟩
      rw [Chunk.decompress, if_pos (hcompression.trans hlz4), hdata, hsize]
      exact he
  · exact .inl fun hlz4' => absurd (hcompression.symm.trans hlz4') hlz4

theorem World.OpenedFrom.parses {P : Bytes → Chunk → Prop} {fs : List BagFile} (h : world.OpenedFrom fs)
    (hbags : ∀ b ∈ view.bags, b < world.bags.length)
    (hchunks : ∀ b ∈ view.bags, ∀ f, fs[b]? = some f → ∀ bag, f.Opens bag → ∀ i chunk, bag.chunks[i]? = some chunk →
      f.Selects selection (f.chunkOf i) → P bag.bagBytes chunk)
    {order : List ℕ} (horder : order.Perm (view.getMessages selection world).2.wrappers) :
    (view.getMessages selection world).1.Parses P order := by
  have hwrapped := View.wrapped_getMessages selection hbags
  intro p hp w file hw hfile c hc chunk hchunk
  obtain ⟨b, hb⟩ := View.mem_wrappers_iff.1 (horder.mem_iff.1 hp)
  obtain ⟨bag, hbag, hw'⟩ := hwrapped.wrapper hb
  rw [hw] at hw'
  cases hw'
  rw [(View.wrapper_front selection b bag).1, files_eq_of_bags hwrapped.bags, files_getElem? hbag] at hfile
  cases hfile
  obtain ⟨f, hf, hopens⟩ := h.opens hbag
  exact hchunks b (View.mem_bags_of_wrapperOf hbags hb) f hf bag hopens c chunk hchunk
    (hopens.mem_chunksToParse.1 hc).2

theorem World.DamagedFrom.parses {P : Bytes → Chunk → Prop} {codecs : Codecs}
    (h : world.DamagedFrom codecs files noise xs) (hbags : ∀ b ∈ view.bags, b < world.bags.length)
    (hchunks : ∀ b ∈ view.bags, ∀ f, files[b]? = some f → ∀ bag, (f.damage (noise b)).Opens bag → ∀ i chunk,
      bag.chunks[i]? = some chunk → (f.damage (noise b)).Selects selection ((f.damage (noise b)).chunkOf i) →
        P bag.bagBytes chunk)
    {order : List ℕ} (horder : order.Perm (view.getMessages selection world).2.wrappers) :
    (view.getMessages selection world).1.Parses P order := by
  refine h.opened.parses hbags (fun b hb f' hf' => ?_) horder
  rw [List.getElem?_mapIdx, Option.map_eq_some_iff] at hf'
  obtain ⟨f, hf, rfl⟩ := hf'
  exact hchunks b hb f hf

theorem BagFile.FramesRead.damage {IsFrame : Bytes → Bytes → Prop} {f : BagFile} {selection : View.Selection}
    {noise : ℕ → Bytes} (h : f.FramesRead IsFrame selection) (hnone : ∀ k, f.Selects selection k → noise k = []) :
    (f.damage noise).FramesRead IsFrame selection := by
  rintro k c ⟨chunk, hchunk, htopics⟩ hc hcompression
  rw [BagFile.damage, BagLayout.getElem?_damage, Option.map_eq_some_iff] at hchunk hc
  obtain ⟨d, hd, rfl⟩ := hchunk
  have hselects : f.Selects selection k := ⟨d, hd, htopics⟩
  obtain ⟨d', hd', rfl⟩ := hc
  rw [hnone k hselects, FileChunk.damage_nil] at hcompression ⊢
  exact h k d' hselects hd' hcompression

inductive LoopEndsShared (env : SharedEnv) :
    env.lz4.Context × World × Iterator → List (ℕ × RosMessage) → Option Fault → Prop
  | atEnd {st : env.lz4.Context × World × Iterator} (h : st.2.2.atEnd) : LoopEndsShared env st [] none
  | advance {context context' : env.lz4.Context} {world world' : World} {it : Iterator} {m : RosMessage}
    {st : World × Iterator} {e : Fault} (hderef : it.deref env.own world = (world', .ok m))
    (h : it.advanceShared env context world' = (context', st, .error e)) :
    LoopEndsShared env (context, world, it) [(it.frontBag world, m)] (some e)

/-- What a loop over a view comes with in a process whose context is in this state, and the exception that ends
it. -/
inductive View.LoopShared (env : SharedEnv) (selection : View.Selection) (view : View) (world : World)
    (order : List ℕ) (context : env.lz4.Context) : List (ℕ × RosMessage) → Option Fault → Prop
  | begin {context' : env.lz4.Context} {world' : World} {e : Fault}
    (h : (view.getMessages selection world).1.beginShared env order context = (context', world', .error e)) :
    LoopShared env selection view world order context [] (some e)
  | steps {context₁ context₂ : env.lz4.Context} {st st' : World × Iterator} {out last : List (ℕ × RosMessage)}
    {fault : Option Fault}
    (hbegin : (view.getMessages selection world).1.beginShared env order context = (context₁, st.1, .ok st.2))
    (hsteps : StepsShared env (context₁, st) out (context₂, st'))
    (hends : LoopEndsShared env (context₂, st') last fault) :
    LoopShared env selection view world order context (out ++ last) fault

section Shared

variable {env : SharedEnv} {AtBoundary : env.lz4.Context → Prop} {IsFrame : Bytes → Bytes → Prop}
  {context : env.lz4.Context} {order : List ℕ}

theorem LoopEnds.shared (hlz4 : env.lz4.Documented AtBoundary IsFrame) {st : World × Iterator}
    {last : List (ℕ × RosMessage)} {fault : Option Fault} (h : LoopEnds env.own st last fault)
    (hgoes : SharedEnv.Goes AtBoundary IsFrame True order (context, st)) :
    LoopEndsShared env (context, st) last fault := by
  cases h with
  | atEnd h => exact .atEnd h
  | @advance world world' it m st e hderef h =>
    obtain ⟨heq, -⟩ := hgoes.advance hlz4 hderef
    rw [h] at heq
    rcases hshared : it.advanceShared env context world' with ⟨context', r⟩
    rw [hshared] at heq
    cases heq
    exact .advance hderef hshared

/-- A loop meets the context at the end of a frame until a chunk throws, which ends it. -/
theorem View.Loop.shared (hlz4 : env.lz4.Documented AtBoundary IsFrame) (hcontext : AtBoundary context)
    (hparses : (view.getMessages selection world).1.Parses (Chunk.Settles env IsFrame True) order)
    {out : List (ℕ × RosMessage)} {fault : Option Fault} (h : view.Loop env.own selection world order out fault) :
    view.LoopShared env selection world order context out fault := by
  cases h with
  | @begin world' e h =>
    obtain ⟨heq, -⟩ := SharedEnv.beginShared_spec hlz4 hcontext hparses
    rw [h] at heq
    rcases hshared : (view.getMessages selection world).1.beginShared env order context with ⟨context', r⟩
    rw [hshared] at heq
    cases heq
    exact .begin hshared
  | steps hbegin hsteps hends =>
    obtain ⟨context₁, hgoes, hbegin'⟩ := SharedEnv.Goes.begin hlz4 hcontext hparses hbegin
    obtain ⟨context₂, hgoes', hsteps'⟩ := hgoes.exists_steps hlz4 hsteps
    exact .steps hbegin' hsteps' (hends.shared hlz4 hgoes')

/-- Damage to a chunk does not reach the messages in front of it. A loop over damaged bags comes to an end. The
messages of the first chunks of each bag, of which those that are read are whole, come in the order of their
times, as they were published, and before all that the bag has behind them. At `end()` they are all there; where
an exception ends the loop, or a record that leads out of its buffer, all those of a bag are that has more to
read. -/
theorem View.damage_contained (hlz4 : env.lz4.Documented AtBoundary IsFrame)
    (hdamaged : world.DamagedFrom env.own.codecs files noise xs)
    (hbags : ∀ b ∈ view.bags, b < world.bags.length)
    (hindexed : ∀ topics, selection = .topics topics → ∀ f ∈ files, f.Indexed)
    (hwhole : ∀ b ∈ view.bags, ∀ f, files[b]? = some f → f.WholeUpTo (noise b) selection (reach b))
    (hlz4Chunks : ∀ b ∈ view.bags, ∀ f, files[b]? = some f →
      (f.damage (noise b)).Lz4ChunksRead (env.lz4.EndsOrThrows IsFrame) selection)
    (horder : order.Perm (view.getMessages selection world).2.wrappers) (hcontext : AtBoundary context) :
    ∃ out fault streams left, view.LoopShared env selection world order context out fault ∧
      (∀ b, List.Forall₂ (fun m x => m.Carries x ∧ m.Reads x) (streams b)
        (view.published selection (intact files reach xs) b)) ∧
      Takes RosMessage.key (GoesOn files selection reach) streams out left ∧
      (∀ b, ∃ got behind, (out.filter fun x => x.1 = b).map Prod.snd = got ++ behind ∧ streams b = got ++ left b ∧
        (behind = [] ∨ GoesOn files selection reach b ∧ left b = [])) ∧
      (fault = none → ∀ b, left b = []) ∧
      ∀ e, fault = some e → (e.thrown = true ∨ e = .undefined) ∧
        ∃ b ∈ view.bags, GoesOn files selection reach b ∧ left b = [] := by
  obtain ⟨out, fault, streams, left, hloop, hcarries, htakes, hend, hthrown⟩ :=
    exists_loop (env.throws_codecs _) hdamaged hbags hindexed hwhole horder
  have hparses := @World.DamagedFrom.parses selection view world files noise xs (Chunk.Settles env IsFrame True) _
    hdamaged hbags (fun b hb f hf bag hopens i chunk hchunk hselects => hopens.settles hchunk fun c hc =>
      hlz4Chunks b hb f hf _ c hselects hc) order horder
  exact ⟨out, fault, streams, left, hloop.shared hlz4 hcontext hparses,
    fun b => (hcarries b).imp fun _ _ h => ⟨h, h.reads⟩, htakes, htakes.exists_filter_eq, hend, hthrown⟩

/-- What is not asked for may be damaged: where all chunks are whole that hold something of the topics, the
damaged bags are read as the whole ones are. -/
theorem View.damage_unseen (hlz4 : env.lz4.Documented AtBoundary IsFrame)
    (hdamaged : world.DamagedFrom env.own.codecs files noise xs)
    (hbags : ∀ b ∈ view.bags, b < world.bags.length)
    (hindexed : ∀ topics, selection = .topics topics → ∀ f ∈ files, f.Indexed)
    (hunseen : ∀ b ∈ view.bags, ∀ f, files[b]? = some f → ∀ k, f.Selects selection k → noise b k = [])
    (hframes : ∀ b ∈ view.bags, ∀ f, files[b]? = some f → f.FramesRead IsFrame selection)
    (horder : order.Perm (view.getMessages selection world).2.wrappers) (hcontext : AtBoundary context) :
    ∃ context₁ context₂ st out st' merged,
      (view.getMessages selection world).1.beginShared env order context = (context₁, st.1, .ok st.2) ∧
      StepsShared env (context₁, st) out (context₂, st') ∧ st'.2.atEnd ∧
      IsMerge Published.key (view.published selection xs) merged ∧
      List.Forall₂ (fun x y => y.1 = x.1 ∧ x.2.Carries y.2 ∧ x.2.Reads y.2) out merged := by
  obtain ⟨st, out, st', merged, hbegin, hsteps, hend, hmerged, hall⟩ :=
    exists_unseen (env.throws_codecs _) hdamaged hbags hindexed hunseen horder
  have hparses := @World.DamagedFrom.parses selection view world files noise xs (Chunk.Settles env IsFrame False) _
    hdamaged hbags (fun b hb f hf bag hopens i chunk hchunk hselects => .inl (hopens.endsWithFrame hchunk
      fun c hc => (hframes b hb f hf).damage (hunseen b hb f hf) _ c hselects hc)) order horder
  obtain ⟨context₁, hgoes, hbegin'⟩ := SharedEnv.Goes.begin hlz4 hcontext hparses hbegin
  obtain ⟨context₂, -, hsteps'⟩ := hgoes.exists_steps hlz4 hsteps
  exact ⟨context₁, context₂, st, out, st', merged, hbegin', hsteps', hend, hmerged, hall⟩

end Shared

end Damaged

section Sample

def packedChunk (second : Bool) : FileChunk where
  compression := bytes "lz4"
  size := (ChunkRecord.encodeAll (pairRecords second)).length
  record := {
    header := .of [(bytes "op", [5]), (bytes "compression", bytes "lz4"),
      (bytes "size", le 4 (ChunkRecord.encodeAll (pairRecords second)).length)]
      (by cases second <;> decide)
    data := sampleFrame (ChunkRecord.encodeAll (pairRecords second))
    fits := by cases second <;> decide }
  index := (pairChunk second).index
  compression_mem := lz4_mem_compressions
  sizeFits := (pairChunk second).sizeFits
  has := List.Subset.refl _

def packedInfo (second : Bool) : FileChunkInfo where
  chunk := cond second 1 0
  position := cond second 358 90
  startTime := ⟨cond second 7 5, 0⟩
  endTime := ⟨cond second 7 6, 0⟩
  count := cond second 1 2
  record := {
    header := .of [(bytes "op", [6]), (bytes "ver", le 4 1), (bytes "chunk_pos", le 8 (cond second 358 90)),
      (bytes "start_time", le 4 (cond second 7 5 : UInt32).toNat ++ le 4 (0 : UInt32).toNat),
      (bytes "end_time", le 4 (cond second 7 6 : UInt32).toNat ++ le 4 (0 : UInt32).toNat),
      (bytes "count", le 4 (cond second 1 2))] (by cases second <;> decide)
    data := []
    fits := nil_fits }
  positionFits := by cases second <;> decide
  countFits := (pairInfo second).countFits
  has := List.Subset.refl _

def packedBag : StoredBag where
  toBagLayout := { pairLayout with
    record := {
      header := .of [(bytes "op", [3]), (bytes "index_pos", le 8 524),
        (bytes "conn_count", le 4 2), (bytes "chunk_count", le 4 2)] (by decide)
      data := []
      fits := nil_fits }
    chunks := [packedChunk false, packedChunk true]
    infos := [packedInfo false, packedInfo true] }
  has := by decide +kernel
  ids := List.Perm.refl _
  infosOf := List.Perm.refl _
  positions := by decide +kernel
  counts := by decide
  indexed := by decide
  messages := by decide
  connectionsFit := two_fits
  chunksFit := two_fits
  size := by decide +kernel
  contents := [pairRecords false, pairRecords true]
  stored := .cons ⟨by simp [pairRecords], rfl, fun h => absurd h lz4_ne_none⟩
    (.cons ⟨by simp [pairRecords], rfl, fun h => absurd h lz4_ne_none⟩ .nil)
  known := pairBag.known
  accepted := pairBag.accepted

theorem decompresses_packedBag : packedBag.Decompresses sampleShared.own.codecs := by
  have hnot : bytes "lz4" ≠ bytes "bz2" := by decide
  exact .cons ⟨fun _ => by decide +kernel, fun h => absurd h hnot⟩
    (.cons ⟨fun _ => by decide +kernel, fun h => absurd h hnot⟩ .nil)

theorem records_packedBag : packedBag.Records pairPublished :=
  ⟨records_pairBag.messages.imp fun _ _ h => ⟨h.connection, h.time, h.data⟩, records_pairBag.2⟩

theorem ne_lz4_pairBag {c : FileChunk} (hc : c ∈ pairBag.chunks) : c.compression ≠ bytes "lz4" := by
  rcases List.mem_pair.1 hc with rfl | rfl
  · exact lz4_ne_none.symm
  · exact lz4_ne_none.symm

theorem endsWithFrame_packedChunk (second : Bool) :
    Lz4f.EndsWithFrame IsSampleFrame (packedChunk second).record.data (packedChunk second).size := by
  have hframe := endsWithFrame_sample (ChunkRecord.encodeAll (pairRecords second)) []
    (by cases second <;> decide)
  rwa [List.append_nil] at hframe

/-- A bag with its chunks in frames of LZ4, the second of them damaged, and a bag without any. -/
def damagedNoise (b k : ℕ) : Bytes := if b = 1 ∧ k = 1 then [255] else []

def damagedFiles : List StoredBag := [pairBag, packedBag]

def damagedWorld : World :=
  { bags := [(pairBag.damage (damagedNoise 0)).bag, (packedBag.damage (damagedNoise 1)).bag] }

theorem throws_damagedNoise : ∃ e, (sampleShared.lz4.decompressLz4Chunk sampleShared.lz4.created
    ((packedChunk true).damage (damagedNoise 1 1)).record.data (packedChunk true).size).2.2 = .error e := by
  have hnone : (sampleShared.lz4.decompressLz4Chunk sampleShared.lz4.created
      ((packedChunk true).damage (damagedNoise 1 1)).record.data (packedChunk true).size).2.2.toOption = none := by
    decide +kernel
  cases h : (sampleShared.lz4.decompressLz4Chunk sampleShared.lz4.created
      ((packedChunk true).damage (damagedNoise 1 1)).record.data (packedChunk true).size).2.2 with
  | error e => exact ⟨e, rfl⟩
  | ok u =>
    rw [h] at hnone
    cases hnone

theorem damagedFrom_damagedWorld :
    damagedWorld.DamagedFrom sampleShared.own.codecs damagedFiles damagedNoise fun _ => pairPublished where
  opened := .cons (pairBag.damage _).opens_bag (.cons (packedBag.damage _).opens_bag .nil)
  records b f hf := by
    rcases List.mem_pair.1 (List.mem_of_getElem? hf) with rfl | rfl
    · exact ⟨decompresses_pairBag _, records_pairBag⟩
    · exact ⟨decompresses_packedBag, records_packedBag⟩

theorem lt_length_damagedWorld : ∀ b ∈ [0, 1], b < damagedWorld.bags.length := by
  intro b hb
  rcases List.mem_pair.1 hb with rfl | rfl
  · exact Nat.two_pos
  · exact Nat.one_lt_two

theorem indexed_packedBag : packedBag.Indexed := by
  intro x hx records hrecords r hr
  rcases List.mem_pair.1 hx with rfl | rfl
  · exact StoredBag.indexed_pairBag (pairInfo false) List.mem_cons_self records hrecords r hr
  · exact StoredBag.indexed_pairBag (pairInfo true) (List.mem_cons_of_mem _ List.mem_cons_self) records hrecords r hr

theorem indexed_damagedFiles : ∀ f ∈ damagedFiles, f.Indexed := by
  intro f hf
  rcases List.mem_pair.1 hf with rfl | rfl
  · exact StoredBag.indexed_pairBag
  · exact indexed_packedBag

def damagedReach (b : ℕ) : ℕ := if b = 1 then 1 else 2

/-- Decompressing the second chunk of the second bag throws. -/
theorem View.damage_contained_sample : ∃ out fault streams left,
    View.LoopShared sampleShared .all { bags := [0, 1] } damagedWorld
      (View.getMessages .all { bags := [0, 1] } damagedWorld).2.wrappers sampleShared.lz4.created out fault ∧
    (∀ b, List.Forall₂ (fun m x => m.Carries x ∧ m.Reads x) (streams b)
      (View.published .all { bags := [0, 1] } (intact damagedFiles damagedReach fun _ => pairPublished) b)) ∧
    Takes RosMessage.key (GoesOn damagedFiles .all damagedReach) streams out left ∧
    (∀ b, ∃ got behind, (out.filter fun x => x.1 = b).map Prod.snd = got ++ behind ∧ streams b = got ++ left b ∧
      (behind = [] ∨ GoesOn damagedFiles .all damagedReach b ∧ left b = [])) ∧
    (fault = none → ∀ b, left b = []) ∧
    ∀ e, fault = some e → (e.thrown = true ∨ e = .undefined) ∧
      ∃ b ∈ [0, 1], GoesOn damagedFiles .all damagedReach b ∧ left b = [] := by
  refine View.damage_contained documented_sampleShared damagedFrom_damagedWorld lt_length_damagedWorld
    (fun _ _ => indexed_damagedFiles) ?_ ?_ (List.Perm.refl _) documented_sampleShared.created
  · intro b _ f _ j hj _
    rw [damagedNoise, if_neg]
    rintro ⟨rfl, rfl⟩
    exact absurd hj (by decide)
  · rintro b hb f hf k c - hc hcompression
    rcases List.mem_pair.1 hb with rfl | rfl
    · cases hf
      exact absurd hcompression (ne_lz4_pairBag (List.mem_of_getElem? hc))
    · cases hf
      rcases k with _ | _ | k
      · cases hc
        exact .inl (endsWithFrame_packedChunk false)
      · cases hc
        exact .inr throws_damagedNoise
      · cases hc

theorem View.damage_unseen_sample : ∃ context₁ context₂ st out st' merged,
    (View.getMessages (.topics [bytes "/a"]) { bags := [0, 1] } damagedWorld).1.beginShared sampleShared
      (View.getMessages (.topics [bytes "/a"]) { bags := [0, 1] } damagedWorld).2.wrappers
      sampleShared.lz4.created = (context₁, st.1, .ok st.2) ∧
    StepsShared sampleShared (context₁, st) out (context₂, st') ∧ st'.2.atEnd ∧
    IsMerge Published.key (View.published (.topics [bytes "/a"]) { bags := [0, 1] } fun _ => pairPublished)
      merged ∧
    List.Forall₂ (fun x y => y.1 = x.1 ∧ x.2.Carries y.2 ∧ x.2.Reads y.2) out merged := by
  refine View.damage_unseen documented_sampleShared damagedFrom_damagedWorld lt_length_damagedWorld
    (fun _ _ => indexed_damagedFiles) ?_ ?_ (List.Perm.refl _) documented_sampleShared.created
  · rintro b - f hf k ⟨chunk, hchunk, hselect⟩
    rw [damagedNoise, if_neg]
    rintro ⟨rfl, rfl⟩
    -- the second chunk has nothing on the first topic
    cases hf
    cases hchunk
    obtain ⟨c, hc, htopic, y, hy, hid⟩ := hselect _ rfl
    cases List.mem_singleton.1 hy
    rcases List.mem_pair.1 hc with rfl | rfl
    · exact absurd hid (by decide)
    · exact absurd htopic (by decide)
  · rintro b hb f hf k c - hc hcompression
    rcases List.mem_pair.1 hb with rfl | rfl
    · cases hf
      exact absurd hcompression (ne_lz4_pairBag (List.mem_of_getElem? hc))
    · cases hf
      rcases List.mem_pair.1 (List.mem_of_getElem? hc) with rfl | rfl
      · exact endsWithFrame_packedChunk false
      · exact endsWithFrame_packedChunk true

end Sample

end Embag
