import Embag.SharedContext
import Embag.ViewContents

/-! Passes that are begun anew. Two worlds whose wrappers have the same messages to give are
gone through in the same way, and `begin` gives all messages of the view exactly where what is
left of the buffers has the messages of the first chunks. -/

namespace Embag

open Scan

section Reset

variable {env : Env} {world world' : World} {p q : ℕ}

theorem World.compare_resetIter (world : World) (p : ℕ) : (world.resetIter p).compare = world.compare := by
  have htimestamp : (world.resetIter p).timestamp = world.timestamp := by
    funext q
    rw [timestamp, resetIter_wrappers, timestamp]
    split_ifs
    · cases world.wrappers[q]? <;> rfl
    · rfl
  unfold compare
  rw [htimestamp]

theorem World.resetIter_set (world : World) (hne : q ≠ p) (w : BagWrapper) :
    ({ bags := world.bags, wrappers := (world.resetIter q).wrappers.set p w } : World) =
      ({ bags := world.bags, wrappers := world.wrappers.set p w } : World).resetIter q := by
  have hwrappers : (world.wrappers.modify q fun w => { w with scan.chunkIter := 0 }).set p w =
      (world.wrappers.set p w).modify q fun w => { w with scan.chunkIter := 0 } := by
    apply List.ext_getElem?
    intro i
    by_cases hip : i = p
    · subst hip
      simp [List.getElem?_set, hne]
    · rw [List.getElem?_set_ne (Ne.symm hip), List.getElem?_modify, List.getElem?_modify,
        List.getElem?_set_ne (Ne.symm hip)]
  unfold resetIter
  rw [hwrappers]

theorem World.readMessage_resetIter_ne (env : Env) (world : World) (hne : q ≠ p) (queue : List ℕ) :
    (world.resetIter q).readMessage env p queue =
      ((world.readMessage env p queue).1.resetIter q, (world.readMessage env p queue).2) := by
  unfold readMessage
  rw [resetIter_wrappers, if_neg hne.symm]
  rcases world.wrappers[p]? with _ | w
  · rfl
  have hbags : (world.resetIter q).bags = world.bags := rfl
  simp only [hbags]
  rcases world.bags[w.scan.bag]? with _ | bag
  · rfl
  dsimp only
  rcases w.scan.readMessage bag env.codecs with ⟨scan, e | _ | current⟩
  · exact congrArg (·, Except.error e) (world.resetIter_set hne _)
  · exact congrArg (·, Except.ok queue) (world.resetIter_set hne _)
  · dsimp only
    rw [world.resetIter_set hne, compare_resetIter]

def World.reset (ps : List ℕ) (world : World) : World := ps.foldl (fun world p => world.resetIter p) world

theorem World.readMessage_reset {ps : List ℕ} (world : World) (hp : p ∉ ps) (queue : List ℕ) :
    (world.reset ps).readMessage env p queue =
      ((world.readMessage env p queue).1.reset ps, (world.readMessage env p queue).2) := by
  induction ps generalizing world with
  | nil => rfl
  | cons q ps ih =>
    rw [List.mem_cons, not_or] at hp
    have hrest := ih (world.resetIter q) hp.2
    rw [world.readMessage_resetIter_ne env (Ne.symm hp.1)] at hrest
    exact hrest

theorem World.resetIter_resetIter (world : World) (p q : ℕ) :
    (world.resetIter p).resetIter q = (world.resetIter q).resetIter p := by
  have hwrappers : ((world.resetIter p).resetIter q).wrappers = ((world.resetIter q).resetIter p).wrappers := by
    apply List.ext_getElem?
    intro i
    simp only [resetIter_wrappers]
    split_ifs <;> simp
  exact congrArg (fun wrappers => ({ world with wrappers } : World)) hwrappers

theorem World.resetIter_reset (world : World) (ps : List ℕ) (p : ℕ) :
    (world.reset ps).resetIter p = (world.resetIter p).reset ps := by
  induction ps generalizing world with
  | nil => rfl
  | cons q ps ih =>
    refine (ih _).trans ?_
    rw [resetIter_resetIter]
    rfl

theorem World.resetIter_self (world : World) (p : ℕ) : (world.resetIter p).resetIter p = world.resetIter p := by
  have hwrappers : ((world.resetIter p).resetIter p).wrappers = (world.resetIter p).wrappers := by
    apply List.ext_getElem?
    intro i
    simp only [resetIter_wrappers]
    split_ifs
    · rw [Option.map_map]
      rfl
    · rfl
  exact congrArg (fun wrappers => ({ world with wrappers } : World)) hwrappers

theorem World.resetIter_of_mem {ps : List ℕ} (world : World) (hp : p ∈ ps) :
    (world.reset ps).resetIter p = world.reset ps := by
  induction ps generalizing world with
  | nil => cases hp
  | cons q ps ih =>
    rcases List.mem_cons.1 hp with rfl | hp
    · rw [resetIter_reset, reset, List.foldl_cons, resetIter_self]
      rfl
    · exact ih (world.resetIter q) hp

/-- `begin` might as well set all iterators before it reads in a wrapper. -/
theorem World.beginLoop_reset {ps : List ℕ} (hps : ps.Nodup) (world : World) {queue queue' : List ℕ} :
    (world.reset ps).beginLoop env ps queue = (world', .ok queue') ↔
      world.beginLoop env ps queue = (world', .ok queue') := by
  induction ps generalizing world queue with
  | nil => rfl
  | cons p ps ih =>
    rw [List.nodup_cons] at hps
    have hread : ((world.reset (p :: ps)).resetIter p).readMessage env p queue =
        ((((world.resetIter p).readMessage env p queue).1).reset ps,
          ((world.resetIter p).readMessage env p queue).2) := by
      rw [resetIter_reset, reset, List.foldl_cons, resetIter_self, ← reset]
      exact readMessage_reset _ hps.1 queue
    unfold beginLoop
    rw [hread]
    rcases (world.resetIter p).readMessage env p queue with ⟨world₁, e | queue₁⟩
    · simp
    · exact ih hps.2 world₁

theorem World.begin_reset {order : List ℕ} (horder : order.Nodup) (world : World) {it : Iterator} :
    (world.reset order).begin env order = (world', .ok it) ↔ world.begin env order = (world', .ok it) := by
  have hbegin : ∀ world : World, world.begin env order = (world', .ok it) ↔
      world.beginLoop env order [] = (world', .ok it.msgQueue) := by
    intro world
    refine ⟨begin_ok, fun h => ?_⟩
    rw [begin, h]
  rw [hbegin, hbegin, beginLoop_reset horder]

theorem World.reset_bags (world : World) (ps : List ℕ) : (world.reset ps).bags = world.bags := by
  induction ps generalizing world with
  | nil => rfl
  | cons p ps ih => exact ih (world.resetIter p)

theorem World.reset_wrappers (world : World) (ps : List ℕ) (q : ℕ) :
    (world.reset ps).wrappers[q]? =
      if q ∈ ps then (world.wrappers[q]?).map fun w => { w with scan.chunkIter := 0 }
      else world.wrappers[q]? := by
  induction ps generalizing world with
  | nil => simp [reset]
  | cons p ps ih =>
    refine (ih (world.resetIter p)).trans ?_
    rw [resetIter_wrappers]
    by_cases hqp : q = p
    · subst hqp
      rw [if_pos rfl, if_pos List.mem_cons_self, Option.map_map]
      split_ifs <;> rfl
    · simp only [hqp, if_false, List.mem_cons, false_or]

end Reset

def Bag.Same (bag : Bag) (c c' : CurrentMessage) : Prop :=
  ∃ m, bag.message c = some m ∧ bag.message c' = some m

theorem Bag.message_timestamp {bag : Bag} {c : CurrentMessage} {m : RosMessage}
    (h : bag.message c = some m) : m.timestamp = c.timestamp := by
  unfold message at h
  obtain ⟨connection, -, rfl⟩ := Option.map_eq_some_iff.1 h
  rfl

theorem Bag.Same.timestamp {bag : Bag} {c c' : CurrentMessage} (h : bag.Same c c') :
    c.timestamp = c'.timestamp := by
  obtain ⟨m, hm, hm'⟩ := h
  rw [← Bag.message_timestamp hm, Bag.message_timestamp hm']

theorem Bag.forall₂_message_iff {bag : Bag} {cs : List CurrentMessage} {ms : List RosMessage} :
    List.Forall₂ (fun c m => bag.message c = some m) cs ms ↔ cs.map bag.message = ms.map some := by
  rw [← List.forall₂_eq_eq_eq, List.forall₂_map_left_iff, List.forall₂_map_right_iff]

theorem Bag.forall₂_same {bag : Bag} {cs cs' : List CurrentMessage} {ms : List RosMessage}
    (h : List.Forall₂ (fun c m => bag.message c = some m) cs ms)
    (h' : List.Forall₂ (fun c m => bag.message c = some m) cs' ms) : List.Forall₂ bag.Same cs cs' := by
  induction h generalizing cs' with
  | nil =>
    rw [List.forall₂_nil_right_iff] at h'
    rw [h']
    exact .nil
  | cons hm _ ih =>
    cases h' with
    | cons hm' h' => exact .cons ⟨_, hm, hm'⟩ (ih h')

/-- Two scans of a bag with the same messages to give. -/
structure Scan.Twins (bag : Bag) (codecs : Codecs) (s s' : Scan) : Prop where
  bag_eq : s'.bag = s.bag
  sound : s.Sound
  sound' : s'.Sound
  remaining : ∃ ms ms', Remaining bag codecs s ms ∧ Remaining bag codecs s' ms' ∧
    List.Forall₂ bag.Same ms ms'

theorem Scan.Twins.readMessage {bag : Bag} {codecs : Codecs} {s s' t : Scan} (h : s.Twins bag codecs s')
    {r : Option CurrentMessage} (hread : s.readMessage bag codecs = (t, .ok r)) :
    ∃ t' r', s'.readMessage bag codecs = (t', .ok r') ∧
      (r = none ∧ r' = none ∨ ∃ m m', r = some m ∧ r' = some m' ∧ bag.Same m m' ∧ t.Twins bag codecs t') := by
  obtain ⟨hbag, hsound, hsound', ms, ms', hms, hms', hsame⟩ := h
  have hgives := gives_of_readMessage hsound hread
  obtain ⟨hsoundt, hcontinues⟩ := hsound.readMessage hread
  rcases hread' : s'.readMessage bag codecs with ⟨t', e | r'⟩
  · exact absurd hms' (gives_of_readMessage hsound' hread' ms')
  have hgives' := gives_of_readMessage hsound' hread'
  obtain ⟨hsoundt', hcontinues'⟩ := hsound'.readMessage hread'
  refine ⟨t', r', rfl, ?_⟩
  cases r with
  | none =>
    rw [(hgives ms).1 hms, List.forall₂_nil_left_iff] at hsame
    cases r' with
    | none => exact .inl ⟨rfl, rfl⟩
    | some m' =>
      obtain ⟨rest, hcons, -⟩ := (hgives' ms').1 hms'
      rw [hsame] at hcons
      cases hcons
  | some m =>
    obtain ⟨rest, rfl, hrest⟩ := (hgives ms).1 hms
    obtain ⟨m', rest', hhead, htail, rfl⟩ := List.forall₂_cons_left_iff.1 hsame
    cases r' with
    | none => cases (hgives' _).1 hms'
    | some _ =>
      obtain ⟨_, hcons, hrest'⟩ := (hgives' _).1 hms'
      cases hcons
      exact .inr ⟨m, m', rfl, rfl, hhead, by rw [hcontinues.bag, hcontinues'.bag, hbag], hsoundt, hsoundt',
        rest, rest', hrest, hrest', htail⟩

theorem Bag.msgDefForTopic_ok_cases {bag bag₁ : Bag} {leftFirst : Bool} {topic : Bytes}
    {schema : Option MsgDef} (h : bag.msgDefForTopic leftFirst topic = (bag₁, .ok schema)) :
    bag.messageSchemata.lookup topic = some schema ∧ bag₁ = bag ∨
      ∃ m, bag.messageSchemata.lookup topic = none ∧ bag.schemaOf topic = .ok m ∧ schema = some m ∧
        bag₁ = { bag with messageSchemata := bag.messageSchemata.insert topic (some m) } := by
  unfold msgDefForTopic at h
  rcases hcached : bag.messageSchemata.lookup topic with _ | schema'
  · simp only [hcached] at h
    rcases hparse : bag.parseMsgDefForTopic leftFirst topic with ⟨bag₂, e | ⟨⟨⟩⟩⟩
    · simp [hparse] at h
    · simp only [hparse, Prod.mk.injEq, Except.ok.injEq] at h
      obtain ⟨rfl, rfl⟩ := h
      rcases parseMsgDefForTopic_cases hparse with ⟨m, hm, -, rfl⟩ | ⟨e, -, he, -⟩
      · exact .inr ⟨m, rfl, hm, by simp, rfl⟩
      · cases he
  · simp only [hcached, Prod.mk.injEq, Except.ok.injEq] at h
    obtain ⟨rfl, rfl⟩ := h
    exact .inl ⟨rfl, rfl⟩

/-- The caches have null pointers for the same topics, or the second for more. -/
def Bag.MissesIn (bag bag' : Bag) : Prop :=
  ∀ topic, bag.messageSchemata.lookup topic = some none → bag'.messageSchemata.lookup topic = some none

theorem Bag.MissesIn.msgDefForTopic {bag bag' bag₁ : Bag} {leftFirst : Bool} {topic : Bytes}
    {schema : Option MsgDef} (h : bag.MissesIn bag') (hfile : bag'.file = bag.file)
    (hsound : bag.SchemataSound) (hsound' : bag'.SchemataSound)
    (hdef : bag.msgDefForTopic leftFirst topic = (bag₁, .ok schema)) :
    ∃ bag₁', bag'.msgDefForTopic leftFirst topic = (bag₁', .ok schema) ∧ bag₁.MissesIn bag₁' := by
  have hschemaOf : bag'.schemaOf topic = bag.schemaOf topic := by
    rw [← Bag.file_schemaOf bag', hfile, Bag.file_schemaOf]
  have hschema := (hsound.msgDefForTopic hdef).2 schema rfl
  have hsame : ∃ bag₁', bag'.msgDefForTopic leftFirst topic = (bag₁', .ok schema) := by
    rcases hof : bag.schemaOf topic with e | d
    · rw [hof] at hschema
      subst hschema
      rcases msgDefForTopic_ok_cases hdef with ⟨hcached, -⟩ | ⟨m, -, hm, -⟩
      · exact ⟨bag', by rw [Bag.msgDefForTopic, h topic hcached]; rfl⟩
      · rw [hof] at hm
        cases hm
    · rw [hof] at hschema
      subst hschema
      exact hsound'.msgDefForTopic_ok leftFirst (hschemaOf.trans hof)
  obtain ⟨bag₁', hdef'⟩ := hsame
  refine ⟨bag₁', hdef', fun topic' hmiss => ?_⟩
  have hmiss' : bag'.messageSchemata.lookup topic' = some none := by
    rcases msgDefForTopic_ok_cases hdef with ⟨-, rfl⟩ | ⟨m, -, -, -, rfl⟩
    · exact h topic' hmiss
    · by_cases hne : topic' = topic
      · subst hne
        simp at hmiss
      · rw [AList.lookup_insert_ne hne] at hmiss
        exact h topic' hmiss
  rcases msgDefForTopic_ok_cases hdef' with ⟨-, rfl⟩ | ⟨m, hnone, -, -, rfl⟩
  · exact hmiss'
  · have hne : topic' ≠ topic := by
      rintro rfl
      rw [hnone] at hmiss'
      cases hmiss'
    rw [AList.lookup_insert_ne hne]
    exact hmiss'

/-- Two states of the wrappers of a view that give the same from now on: their queues are the
same, and the wrappers in it or still to be read have the same messages. -/
structure World.Twins (codecs : Codecs) (world world' : World) (queue todo : List ℕ) : Prop where
  files_eq : world'.files = world.files
  nodup : queue.Nodup
  sound : world.SchemataSound
  sound' : world'.SchemataSound
  missing : ∀ {b : ℕ} {bag bag' : Bag}, world.bags[b]? = some bag → world'.bags[b]? = some bag' →
    bag.MissesIn bag'
  wrapper : ∀ {p}, p ∈ queue ∨ p ∈ todo → ∃ w w' bag, world.wrappers[p]? = some w ∧
    world'.wrappers[p]? = some w' ∧ world.files[w.scan.bag]? = some bag ∧
    w.scan.Twins bag codecs w'.scan ∧ (p ∈ queue → bag.Same w.current w'.current)

section Twins

variable {env : Env} {world world' world₁ : World} {queue queue₁ todo : List ℕ} {p : ℕ}

theorem World.Twins.timestamp (h : world.Twins env.codecs world' queue todo) (hp : p ∈ queue) :
    world.timestamp p = world'.timestamp p := by
  obtain ⟨w, w', bag, hw, hw', -, -, hsame⟩ := h.wrapper (.inl hp)
  rw [World.timestamp, World.timestamp, hw, hw']
  exact (hsame hp).timestamp

theorem World.Twins.set (h : world.Twins env.codecs world' queue (p :: todo)) (hnew : p ∉ todo)
    {w w' : BagWrapper} (hnodup : queue₁.Nodup) (hmem : ∀ q ∈ queue₁, q ≠ p → q ∈ queue)
    (hw : p ∈ queue₁ → ∃ bag, world.files[w.scan.bag]? = some bag ∧
      w.scan.Twins bag env.codecs w'.scan ∧ bag.Same w.current w'.current) :
    ({ world with wrappers := world.wrappers.set p w } : World).Twins env.codecs
      { world' with wrappers := world'.wrappers.set p w' } queue₁ todo where
  files_eq := h.files_eq
  nodup := hnodup
  sound := h.sound
  sound' := h.sound'
  missing := h.missing
  wrapper {q} hq := by
    obtain ⟨v, v', -, hv, hv', -⟩ := h.wrapper (p := p) (.inr List.mem_cons_self)
    by_cases hqp : q = p
    · subst hqp
      have hqueue : q ∈ queue₁ := hq.resolve_right hnew
      obtain ⟨bag, hbag, htwins, hsame⟩ := hw hqueue
      refine ⟨w, w', bag, ?_, ?_, hbag, htwins, fun _ => hsame⟩
      · exact List.getElem?_set_self (List.getElem?_eq_some_iff.1 hv).1
      · exact List.getElem?_set_self (List.getElem?_eq_some_iff.1 hv').1
    · have hq' : q ∈ queue ∨ q ∈ p :: todo := hq.imp (hmem q · hqp) (List.mem_cons_of_mem p)
      obtain ⟨u, u', bag, hu, hu', hbag, htwins, hsame⟩ := h.wrapper hq'
      refine ⟨u, u', bag, ?_, ?_, hbag, htwins, fun hmem' => hsame (hmem q hmem' hqp)⟩
      · rw [← hu]
        exact List.getElem?_set_ne (Ne.symm hqp)
      · rw [← hu']
        exact List.getElem?_set_ne (Ne.symm hqp)

theorem World.Twins.readMessage (h : world.Twins env.codecs world' queue (p :: todo)) (hp : p ∉ queue)
    (hnew : p ∉ todo) (hread : world.readMessage env p queue = (world₁, .ok queue₁)) :
    ∃ world₁', world'.readMessage env p queue = (world₁', .ok queue₁) ∧
      world₁.Twins env.codecs world₁' queue₁ todo := by
  obtain ⟨w, w', file, hw, hw', hfile, htwins, -⟩ := h.wrapper (.inr List.mem_cons_self)
  obtain ⟨w₀, bag, scan, hw₀, hbag, hbags, hcase⟩ := World.readMessage_ok hread
  rw [hw] at hw₀
  cases hw₀
  rw [files_getElem? hbag] at hfile
  cases hfile
  obtain ⟨bag', hbag', hfile'⟩ := exists_bag_of_files h.files_eq (files_getElem? hbag)
  rw [← htwins.bag_eq] at hbag'
  have hworld₁ : ∀ wrappers, world₁.wrappers = wrappers → world₁ = { world with wrappers } := by
    rintro wrappers rfl
    exact congrArg (fun bags => ({ bags, wrappers := world₁.wrappers } : World)) hbags
  have hcodecs : ∀ s : Scan, s.readMessage bag' env.codecs = s.readMessage bag.file env.codecs := by
    intro s
    rw [← hfile']
    rfl
  rcases hcase with ⟨hscan, hwrappers, rfl⟩ | ⟨current, hscan, hwrappers, hqueue⟩
  · obtain ⟨t', r', hscan', ⟨-, rfl⟩ | ⟨m, m', hm, -⟩⟩ := htwins.readMessage hscan
    · refine ⟨{ world' with wrappers := world'.wrappers.set p { w' with scan := t' } }, ?_, ?_⟩
      · rw [World.readMessage, hw']
        simp only [hbag', hcodecs, hscan']
      · rw [hworld₁ _ hwrappers]
        exact h.set hnew h.nodup (fun q hq _ => hq) fun hmem => absurd hmem hp
    · cases hm
  · obtain ⟨t', r', hscan', ⟨hm, -⟩ | ⟨m, m', hm, rfl, hsame, htwins'⟩⟩ := htwins.readMessage hscan
    · cases hm
    obtain rfl := Option.some.inj hm
    have hperm : queue₁.Perm (p :: queue) := by
      rw [hqueue]
      exact env.heap.push_perm _ _ _
    have hset : ({ world with wrappers := world.wrappers.set p { scan, current } } : World).Twins env.codecs
        { world' with wrappers := world'.wrappers.set p { scan := t', current := m' } } queue₁ todo := by
      refine h.set hnew (hperm.nodup_iff.2 (List.nodup_cons.2 ⟨hp, h.nodup⟩)) (fun q hq hne => ?_)
        fun _ => ⟨bag.file, ?_, htwins', hsame⟩
      · exact (List.mem_cons.1 (hperm.mem_iff.1 hq)).resolve_left hne
      · rw [(continues_of_readMessage hscan).bag]
        exact files_getElem? hbag
    have heq := hworld₁ _ hwrappers
    rw [← heq] at hset
    refine ⟨_, ?_, hset⟩
    rw [World.readMessage, hw']
    simp only [hbag', hcodecs, hscan']
    rw [hqueue]
    refine congrArg (fun queue => (_, Except.ok queue)) (env.heap.push_congr fun x hx y hy => ?_)
    rw [World.compare, World.compare, hset.timestamp (hperm.mem_iff.2 hx),
      hset.timestamp (hperm.mem_iff.2 hy)]

theorem World.Twins.beginLoop {ps : List ℕ} (h : world.Twins env.codecs world' queue ps) (hps : ps.Nodup)
    (hdisjoint : ∀ p ∈ ps, p ∉ queue) (hfront : ∀ p ∈ ps, world.resetIter p = world)
    (hfront' : ∀ p ∈ ps, world'.resetIter p = world')
    (hloop : world.beginLoop env ps queue = (world₁, .ok queue₁)) :
    ∃ world₁', world'.beginLoop env ps queue = (world₁', .ok queue₁) ∧
      world₁.Twins env.codecs world₁' queue₁ [] := by
  induction ps generalizing world world' queue with
  | nil =>
    cases hloop
    exact ⟨world', rfl, h⟩
  | cons p ps ih =>
    rw [List.nodup_cons] at hps
    rw [List.forall_mem_cons] at hdisjoint hfront hfront'
    obtain ⟨world₂, queue₂, hread, hrest⟩ := World.beginLoop_cons_ok hloop
    rw [hfront.1] at hread
    obtain ⟨world₂', hread', htwins⟩ := h.readMessage hdisjoint.1 hps.1 hread
    have hkeeps : ∀ {world world₂ : World}, world.readMessage env p queue = (world₂, .ok queue₂) →
        (∀ q ∈ ps, world.resetIter q = world) → ∀ q ∈ ps, world₂.resetIter q = world₂ := by
      intro world world₂ hread hfront q hq
      have hne : q ≠ p := fun heq => hps.1 (heq ▸ hq)
      have hcomm := world.readMessage_resetIter_ne env hne queue
      rw [hfront q hq, hread] at hcomm
      exact (Prod.mk.inj hcomm).1.symm
    have hnew : ∀ q ∈ ps, q ∉ queue₂ := by
      intro q hq hmem
      have hsnd : (world.readMessage env p queue).2 = .ok queue₂ := by rw [hread]
      rcases World.mem_of_readMessage hsnd hmem with rfl | hmem
      · exact hps.1 hq
      · exact hdisjoint.2 q hq hmem
    obtain ⟨world₁', hloop', htwins'⟩ := ih htwins hps.2 hnew (hkeeps hread hfront.2)
      (hkeeps hread' hfront'.2) hrest
    refine ⟨world₁', ?_, htwins'⟩
    rw [World.beginLoop, hfront'.1, hread']
    exact hloop'

theorem World.Twins.deref {it : Iterator} {m : RosMessage} (h : world.Twins env.codecs world' it.msgQueue [])
    (hderef : it.deref env world = (world₁, .ok m)) :
    ∃ world₁', it.deref env world' = (world₁', .ok m) ∧ it.frontBag world' = it.frontBag world ∧
      world₁.Twins env.codecs world₁' it.msgQueue [] := by
  obtain ⟨p, queue, w, bag, bag₁, hqueue, hw, hbag, hshows, hdef, rfl⟩ := Iterator.deref_ok hderef
  obtain ⟨v, w', file, hv, hw', hfile, htwins, hsame⟩ := h.wrapper (p := p) (.inl (by simp [hqueue]))
  rw [hw] at hv
  cases hv
  rw [files_getElem? hbag] at hfile
  cases hfile
  obtain ⟨bag', hbag', hfile'⟩ := exists_bag_of_files h.files_eq (files_getElem? hbag)
  have hsound := h.sound bag (List.mem_of_getElem? hbag)
  have hsound' := h.sound' bag' (List.mem_of_getElem? hbag')
  obtain ⟨bag₁', hdef', hmissing⟩ := (h.missing hbag hbag').msgDefForTopic hfile' hsound hsound' hdef
  -- the message is the same
  obtain ⟨x, hx, hx'⟩ := hsame (by simp [hqueue])
  have hmessage : bag.file.message w.current = some m :=
    hshows.message ((hsound.msgDefForTopic hdef).2 _ rfl)
  rw [hmessage] at hx
  cases hx
  rw [← hfile', Bag.message, Option.map_eq_some_iff] at hx'
  obtain ⟨connection, hconnection, hm⟩ := hx'
  have hconnection' : bag'.connections[w'.current.connectionId]? = some connection := hconnection
  have htopic : m.topic = connection.topic := by rw [← hm]
  have hfront : ∀ {world : World} {w : BagWrapper}, world.wrappers[p]? = some w →
      it.frontBag world = w.scan.bag := by
    intro world w hw
    simp [Iterator.frontBag, hqueue, hw]
  refine ⟨{ world' with bags := world'.bags.set w'.scan.bag bag₁' }, ?_, ?_, ?_⟩
  · rw [htopic] at hdef'
    rw [← htwins.bag_eq] at hbag'
    unfold Iterator.deref
    simp only [hqueue, hw', hbag', hconnection', hdef']
    rw [← hm]
  · rw [hfront hw', hfront hw, htwins.bag_eq]
  · rw [htwins.bag_eq]
    have hfiles₁ := files_set hbag (Bag.file_of_msgDefForTopic hdef)
    have hfiles₁' := files_set hbag' (Bag.file_of_msgDefForTopic hdef')
    refine ⟨?_, h.nodup, h.sound.set (hsound.msgDefForTopic hdef).1,
      h.sound'.set (hsound'.msgDefForTopic hdef').1, ?_, ?_⟩
    · rw [hfiles₁, hfiles₁']
      exact h.files_eq
    · intro b c c' hc hc'
      by_cases hb : w.scan.bag = b
      · subst hb
        rw [List.getElem?_set_self (List.getElem?_eq_some_iff.1 hbag).1] at hc
        rw [List.getElem?_set_self (List.getElem?_eq_some_iff.1 hbag').1] at hc'
        cases hc
        cases hc'
        exact hmissing
      · rw [List.getElem?_set_ne hb] at hc hc'
        exact h.missing hc hc'
    · rw [hfiles₁]
      exact h.wrapper

theorem World.Twins.advance {it it₁ : Iterator} (h : world.Twins env.codecs world' it.msgQueue [])
    (hadvance : it.advance env world = ((world₁, it₁), .ok ())) :
    ∃ world₁', it.advance env world' = ((world₁', it₁), .ok ()) ∧
      world₁.Twins env.codecs world₁' it₁.msgQueue [] := by
  obtain ⟨p, queue, hqueue, hread⟩ := Iterator.advance_ok hadvance
  rw [hqueue] at h
  have hperm := env.heap.pop_perm world.compare p queue
  have hnodup := List.nodup_cons.1 h.nodup
  have hpop : env.heap.pop world'.compare (p :: queue) = env.heap.pop world.compare (p :: queue) := by
    refine env.heap.pop_congr fun x hx y hy => ?_
    rw [World.compare, World.compare, h.timestamp hx, h.timestamp hy]
  have hpopped : world.Twins env.codecs world' (env.heap.pop world.compare (p :: queue)) [p] := by
    refine ⟨h.files_eq, hperm.nodup_iff.2 hnodup.2, h.sound, h.sound', h.missing, fun {q} hq => ?_⟩
    have hmem : q ∈ p :: queue := by
      rcases hq with hq | hq
      · exact List.mem_cons_of_mem p (hperm.mem_iff.1 hq)
      · exact List.mem_singleton.1 hq ▸ List.mem_cons_self
    obtain ⟨w, w', bag, hw, hw', hbag, htwins, hsame⟩ := h.wrapper (.inl hmem)
    exact ⟨w, w', bag, hw, hw', hbag, htwins, fun _ => hsame hmem⟩
  have hp : p ∉ env.heap.pop world.compare (p :: queue) := by
    rw [hperm.mem_iff]
    exact hnodup.1
  obtain ⟨world₁', hread', htwins⟩ := hpopped.readMessage hp List.not_mem_nil hread
  refine ⟨world₁', ?_, htwins⟩
  unfold Iterator.advance
  simp only [hqueue, hpop, hread']

theorem World.Twins.steps {st st' : World × Iterator} {out : List (ℕ × RosMessage)}
    (hsteps : Steps env st out st') (h : st.1.Twins env.codecs world' st.2.msgQueue []) :
    ∃ world₁', Steps env (world', st.2) out (world₁', st'.2) := by
  induction hsteps generalizing world' with
  | refl => exact ⟨world', .refl⟩
  | step hderef hadvance _ ih =>
    obtain ⟨world₂', hderef', hfront, htwins⟩ := h.deref hderef
    obtain ⟨world₃', hadvance', htwins'⟩ := htwins.advance hadvance
    obtain ⟨world₁', hsteps'⟩ := ih htwins'
    refine ⟨world₁', ?_⟩
    rw [← hfront]
    exact .step hderef' hadvance' hsteps'

/-- A pass that comes to its end in one world does so in the other, with the same messages. -/
theorem World.Twins.pass {order : List ℕ} (horder : order.Nodup)
    (h : (world.reset order).Twins env.codecs (world'.reset order) [] order)
    {out : List (ℕ × RosMessage)} (hpass : world.Pass env order out none) : world'.Pass env order out none := by
  have hfixed : ∀ (world : World), ∀ p ∈ order, (world.reset order).resetIter p = world.reset order :=
    fun world p hp => world.resetIter_of_mem hp
  cases hpass with
  | @ends world₁ it _ st hbegin hsteps hend =>
    have hbegin' := (World.begin_reset horder world).2 hbegin
    obtain ⟨world₁', hloop', htwins⟩ := h.beginLoop horder (by simp) (hfixed world) (hfixed world')
      (World.begin_ok hbegin')
    obtain ⟨world₂', hsteps'⟩ := World.Twins.steps hsteps htwins
    refine .ends ((World.begin_reset horder world').1 ?_) hsteps' hend
    rw [World.begin, hloop']

end Twins

section Streams

variable {files : List Bag} {wrapperOf : ℕ → Option ℕ} {env : Env} {world : World} {order : List ℕ}

theorem Merging.reset (h : Merging files wrapperOf world []) (order : List ℕ) :
    Merging files wrapperOf (world.reset order) [] := by
  refine ⟨(files_eq_of_bags (world.reset_bags order)).trans h.files_eq, ?_, h.nodup, h.mem, Heap.isHeap_nil⟩
  intro b p hb
  obtain ⟨w, bag, hw, hscan, hbag, hsound⟩ := h.wrapper hb
  rw [World.reset_wrappers, hw]
  split_ifs
  · refine ⟨_, bag, rfl, hscan, hbag, ⟨hsound.front, fun hne => Nat.zero_lt_of_lt (hsound.inside hne)⟩⟩
  · exact ⟨w, bag, rfl, hscan, hbag, hsound⟩

theorem Merging.messages_of_pass (h : Merging files wrapperOf world []) (hsound : world.SchemataSound)
    (horder : order.Nodup) (hmem : ∀ p ∈ order, ∃ b, wrapperOf b = some p)
    {out : List (ℕ × RosMessage)} (hpass : world.Pass env order out none) :
    ∃ pending, Pending env.codecs files wrapperOf (world.reset order) [] order pending ∧
      ∀ {b file}, files[b]? = some file →
        List.Forall₂ (fun c m => file.message c = some m) (pending b)
          ((out.filter fun x => x.1 = b).map Prod.snd) := by
  cases hpass with
  | @ends world₁ it _ st hbegin hsteps hend =>
    have hloop := World.begin_ok ((World.begin_reset horder world).2 hbegin)
    have hfront : ∀ p ∈ order, ∀ w, (world.reset order).wrappers[p]? = some w → w.scan.chunkIter = 0 := by
      intro p hp w hw
      rw [World.reset_wrappers, if_pos hp, Option.map_eq_some_iff] at hw
      obtain ⟨v, -, rfl⟩ := hw
      rfl
    obtain ⟨hmerging, hpending⟩ := (h.reset order).beginLoop horder (by simp) hmem hfront hloop
    obtain ⟨pending, streams, hnow, hstreams, hmerge⟩ := Merging.merge hmerging hsteps hend
    refine ⟨pending, (hpending pending).1 hnow, fun {b file} hfile => ?_⟩
    have hbags : world₁.bags = world.bags := by
      have hbegun := World.begin_bags env order world
      rwa [hbegin] at hbegun
    have hschemas := hsteps.schemas (fun bag hbag => hsound bag (by rwa [← hbags]))
    rw [(files_eq_of_bags hbags).trans h.files_eq] at hschemas
    exact hstreams.messages hmerge.filter_eq hschemas hfile

end Streams

/-! ### Where a new pass starts afresh -/

/-- What is left of the buffer has the messages of the first chunk. -/
def Scan.Afresh (bag : Bag) (codecs : Codecs) (s : Scan) : Prop :=
  ∀ buffer, s.currentBuffer = some buffer → ∃ c left first, s.chunksToParse[0]? = some c ∧
    ChunkMessages buffer s.uncompressedSize s.processedBytes left ∧ bag.ChunkHolds codecs c first ∧
    (s.wanted left).map bag.message = (s.wanted first).map bag.message

def World.Afresh (codecs : Codecs) (order : List ℕ) (world : World) : Prop :=
  ∀ p ∈ order, ∃ w bag, world.wrappers[p]? = some w ∧ world.files[w.scan.bag]? = some bag ∧
    w.scan.Afresh bag codecs

namespace Scan

variable {bag : Bag} {codecs : Codecs} {s s₀ : Scan}

theorem remaining_front (hbuffer : s.currentBuffer = none) (hbytes : s.processedBytes = 0)
    {ms : List CurrentMessage} : Remaining bag codecs { s with chunkIter := 0 } ms ↔
      ∃ mss, bag.ChunksHold codecs s.chunksToParse mss ∧ ms = s.wanted mss.flatten :=
  remaining_between (s := { s with chunkIter := 0 }) hbuffer hbytes

theorem Continues.wanted (h : Continues s₀ s) : s.wanted = s₀.wanted := by
  funext ms
  rw [Scan.wanted, h.connectionIds, Scan.wanted]

theorem exists_split (hcontinues : Continues s₀ s) (hinside : 0 < s.chunksToParse.length)
    (hbuffer : s₀.currentBuffer = none) (hbytes : s₀.processedBytes = 0) {ms₀ : List CurrentMessage}
    (hms₀ : Remaining bag codecs { s₀ with chunkIter := 0 } ms₀) :
    ∃ c first mss, s.chunksToParse[0]? = some c ∧ bag.ChunkHolds codecs c first ∧
      bag.ChunksHold codecs (s.chunksToParse.drop 1) mss ∧ ms₀ = s.wanted first ++ s.wanted mss.flatten := by
  obtain ⟨mss, hmss, rfl⟩ := (remaining_front hbuffer hbytes).1 hms₀
  rw [← hcontinues.chunksToParse] at hmss
  obtain ⟨c, rest, hchunks⟩ := List.exists_cons_of_length_pos hinside
  rw [hchunks] at hmss ⊢
  cases hmss with
  | @cons _ first _ mss hfirst hrest =>
    refine ⟨c, first, mss, rfl, hfirst, hrest, ?_⟩
    rw [hcontinues.wanted, List.flatten_cons, wanted_append]

/-- A new `begin` comes to the messages of a new wrapper, where it comes to messages at all. -/
theorem afresh_iff (hsound : s.Sound) (hcontinues : Continues s₀ s) (hbuffer : s₀.currentBuffer = none)
    (hbytes : s₀.processedBytes = 0) {ms ms₀ : List CurrentMessage}
    (hms : Remaining bag codecs { s with chunkIter := 0 } ms)
    (hms₀ : Remaining bag codecs { s₀ with chunkIter := 0 } ms₀) :
    ms.map bag.message = ms₀.map bag.message ↔ s.Afresh bag codecs := by
  rcases hcurrent : s.currentBuffer with _ | buffer
  · obtain ⟨mss, hmss, rfl⟩ := (remaining_front hcurrent (hsound.front hcurrent)).1 hms
    obtain ⟨mss₀, hmss₀, rfl⟩ := (remaining_front hbuffer hbytes).1 hms₀
    rw [hcontinues.chunksToParse] at hmss
    rw [hmss.unique hmss₀, hcontinues.wanted]
    exact iff_of_true rfl fun buffer hsome => by rw [hcurrent] at hsome; cases hsome
  · have hinside : 0 < s.chunksToParse.length := Nat.zero_lt_of_lt (hsound.inside (by simp [hcurrent]))
    obtain ⟨c, first, mss, hc, hfirst, hrest, rfl⟩ := exists_split hcontinues hinside hbuffer hbytes hms₀
    obtain ⟨left, mss', hleft, hrest', rfl⟩ :=
      (remaining_within (s := { s with chunkIter := 0 }) hcurrent hinside).1 hms
    have heq : mss' = mss := hrest'.unique hrest
    have hwanted : ({ s with chunkIter := 0 } : Scan).wanted (left ++ mss'.flatten) =
        s.wanted left ++ s.wanted mss.flatten := by
      rw [heq]
      exact wanted_append ..
    rw [hwanted, List.map_append, List.map_append, List.append_cancel_right_eq]
    constructor
    · intro hsame buffer' hbuffer'
      rw [hcurrent] at hbuffer'
      cases hbuffer'
      exact ⟨c, left, first, hc, hleft, hfirst, hsame⟩
    · intro hafresh
      obtain ⟨c', left', first', hc', hleft', hfirst', hsame⟩ := hafresh buffer hcurrent
      rw [hc] at hc'
      cases hc'
      rw [hleft.unique hleft', hfirst.unique hfirst', hsame]

theorem Afresh.exists_remaining (h : s.Afresh bag codecs) (hsound : s.Sound) (hcontinues : Continues s₀ s)
    (hbuffer : s₀.currentBuffer = none) (hbytes : s₀.processedBytes = 0) {ms₀ : List CurrentMessage}
    (hms₀ : Remaining bag codecs { s₀ with chunkIter := 0 } ms₀) :
    ∃ ms, Remaining bag codecs { s with chunkIter := 0 } ms := by
  obtain hcurrent | ⟨buffer, hcurrent⟩ := Option.eq_none_or_eq_some s.currentBuffer
  · obtain ⟨mss, hmss, -⟩ := (remaining_front hbuffer hbytes).1 hms₀
    rw [← hcontinues.chunksToParse] at hmss
    exact ⟨_, (remaining_front hcurrent (hsound.front hcurrent)).2 ⟨mss, hmss, rfl⟩⟩
  · have hinside : 0 < s.chunksToParse.length := Nat.zero_lt_of_lt (hsound.inside (by simp [hcurrent]))
    obtain ⟨c, first, mss, -, -, hrest, -⟩ := exists_split hcontinues hinside hbuffer hbytes hms₀
    obtain ⟨c', left, first', -, hleft, -, -⟩ := h buffer hcurrent
    exact ⟨_, (remaining_within (s := { s with chunkIter := 0 }) hcurrent hinside).2
      ⟨left, mss, hleft, hrest, rfl⟩⟩

end Scan

theorem Bag.lookup_msgDefForTopic {bag bag₁ : Bag} {leftFirst : Bool} {topic topic' : Bytes}
    {r : Except Fault (Option MsgDef)} {schema : Option MsgDef}
    (h : bag.msgDefForTopic leftFirst topic = (bag₁, r))
    (hlookup : bag.messageSchemata.lookup topic' = some schema) :
    bag₁.messageSchemata.lookup topic' = some schema := by
  unfold msgDefForTopic at h
  rcases hcached : bag.messageSchemata.lookup topic with _ | schema'
  · have hne : topic' ≠ topic := by
      rintro rfl
      rw [hcached] at hlookup
      cases hlookup
    have hinsert : ∀ schema', (bag.messageSchemata.insert topic schema').lookup topic' = some schema := by
      intro schema'
      rw [AList.lookup_insert_ne hne]
      exact hlookup
    simp only [hcached] at h
    rcases hparse : bag.parseMsgDefForTopic leftFirst topic with ⟨bag₂, r₂⟩
    have heq : bag₁ = bag₂ := by
      rw [hparse] at h
      cases r₂ <;> exact (Prod.mk.inj h).1.symm
    rw [heq]
    rcases parseMsgDefForTopic_cases hparse with ⟨m, -, -, rfl⟩ | ⟨e, -, -, rfl | rfl⟩
    · exact hinsert _
    · exact hlookup
    · unfold emplace
      split_ifs
      · exact hlookup
      · exact hinsert _
  · simp only [hcached, Prod.mk.injEq] at h
    obtain ⟨rfl, -⟩ := h
    exact hlookup

/-- The caches of a world are right, and have the null pointers of an earlier one. -/
structure World.CachesFrom (fresh world : World) : Prop where
  sound : world.SchemataSound
  missing : ∀ {b : ℕ} {bag bag' : Bag}, fresh.bags[b]? = some bag → world.bags[b]? = some bag' →
    bag.MissesIn bag'

theorem World.CachesFrom.of_bags {fresh world world' : World} (h : fresh.CachesFrom world)
    (hbags : world'.bags = world.bags) : fresh.CachesFrom world' := by
  refine ⟨fun bag hbag => h.sound bag (by rwa [← hbags]), fun hbag hbag' => h.missing hbag ?_⟩
  rw [← hbags]
  exact hbag'

theorem World.CachesFrom.deref {env : Env} {fresh world : World} (h : fresh.CachesFrom world)
    (it : Iterator) : fresh.CachesFrom (it.deref env world).1 := by
  rcases it.deref_bags env world with hsame | ⟨b, bag, bag', topic, r, hbag, hdef, hworld⟩
  · rw [hsame]
    exact h
  rw [hworld]
  refine ⟨h.sound.set ((h.sound bag (List.mem_of_getElem? hbag)).msgDefForTopic hdef).1,
    fun {b' c c'} hc hc' => ?_⟩
  by_cases hb : b = b'
  · subst hb
    rw [List.getElem?_set_self (List.getElem?_eq_some_iff.1 hbag).1] at hc'
    cases hc'
    exact fun topic' hmiss => Bag.lookup_msgDefForTopic hdef (h.missing hc hbag topic' hmiss)
  · rw [List.getElem?_set_ne hb] at hc'
    exact h.missing hc hc'

theorem World.CachesFrom.call {env : Env} {order : List ℕ} {fresh : World} {s : Session}
    (h : fresh.CachesFrom s.world) (c : Call) : fresh.CachesFrom (s.call env order c).1.world := by
  cases c with
  | begin =>
    rw [Session.call_begin_world]
    exact h.of_bags (World.begin_bags env order s.world)
  | copy i => exact h
  | deref i =>
    rcases hit : s.iterators[i]? with _ | it
    · simp only [Session.call, hit]
      exact h
    · simp only [Session.call, hit]
      exact h.deref it
  | advance i =>
    rcases hit : s.iterators[i]? with _ | it
    · simp only [Session.call, hit]
      exact h
    · simp only [Session.call, hit]
      exact h.of_bags (it.advance_bags env s.world)

theorem World.CachesFrom.calls {env : Env} {order : List ℕ} {fresh : World} {s : Session}
    (h : fresh.CachesFrom s.world) (cs : List Call) : fresh.CachesFrom (s.calls env order cs).world := by
  induction cs generalizing s with
  | nil => exact h
  | cons c cs ih => exact ih (h.call c)

section Afresh

variable {env : Env} {files : List Bag} {wrapperOf : ℕ → Option ℕ} {order : List ℕ} {fresh world : World}

/-- The scans are those that were made with the view, wherever they have come to. -/
def ContinuesFrom (fresh : World) (p : ℕ) (s : Scan) : Prop :=
  s.Sound ∧ ∃ w, fresh.wrappers[p]? = some w ∧ Continues w.scan s

theorem stable_continuesFrom (codecs : Codecs) (files : List Bag) (fresh : World) :
    Stable codecs files (ContinuesFrom fresh) where
  reset := by
    rintro p s ⟨hsound, w, hw, hcontinues⟩
    exact ⟨⟨hsound.front, fun hne => Nat.zero_lt_of_lt (hsound.inside hne)⟩, w, hw,
      hcontinues.trans ⟨rfl, rfl, rfl⟩⟩
  read := by
    rintro p s s' bag r - ⟨hsound, w, hw, hcontinues⟩ hread
    obtain ⟨hsound', hcontinues'⟩ := hsound.readMessage hread
    exact ⟨hsound', w, hw, hcontinues.trans hcontinues'⟩

def World.Front (order : List ℕ) (fresh : World) : Prop :=
  ∀ p ∈ order, ∀ w, fresh.wrappers[p]? = some w →
    w.scan.currentBuffer = none ∧ w.scan.processedBytes = 0

theorem Merging.of_holds (h : Merging files wrapperOf fresh [])
    (hmem : ∀ {b p}, wrapperOf b = some p → p ∈ order) (hholds : world.Holds files order (ContinuesFrom fresh)) :
    Merging files wrapperOf world [] := by
  refine ⟨hholds.files_eq, fun {b p} hb => ?_, h.nodup, h.mem, Heap.isHeap_nil⟩
  obtain ⟨w₀, bag, hw₀, hscan₀, hbag, -⟩ := h.wrapper hb
  obtain ⟨w, bag', hw, hbag', hsound, w', hw', hcontinues⟩ := hholds.wrapper p (hmem hb)
  rw [hw₀] at hw'
  cases hw'
  exact ⟨w, bag, hw, hcontinues.bag.trans hscan₀, hbag, hsound⟩

theorem Merging.exists_continues (h : Merging files wrapperOf fresh [])
    (hmem : ∀ {p}, p ∈ order ↔ ∃ b, wrapperOf b = some p)
    (hholds : world.Holds files order (ContinuesFrom fresh)) {p : ℕ} (hp : p ∈ order) :
    ∃ b w w₀ bag, wrapperOf b = some p ∧ world.wrappers[p]? = some w ∧ fresh.wrappers[p]? = some w₀ ∧
      w.scan.bag = b ∧ files[b]? = some bag ∧ w.scan.Sound ∧ Continues w₀.scan w.scan := by
  obtain ⟨b, hb⟩ := hmem.1 hp
  obtain ⟨w₀, bag, hw₀, hscan₀, hfile, -⟩ := h.wrapper hb
  obtain ⟨w, -, hw, -, hsoundw, w', hw', hcontinues⟩ := hholds.wrapper p hp
  rw [hw₀] at hw'
  cases hw'
  exact ⟨b, w, w₀, bag, hb, hw, hw₀, hcontinues.bag.trans hscan₀, hfile, hsoundw, hcontinues⟩

theorem remaining_of_reset {pending : ℕ → List CurrentMessage} {b p : ℕ} {w : BagWrapper} {bag : Bag}
    (h : Pending env.codecs files wrapperOf (world.reset order) [] order pending) (hp : p ∈ order)
    (hb : wrapperOf b = some p) (hw : world.wrappers[p]? = some w) (hfile : files[b]? = some bag) :
    Remaining bag env.codecs { w.scan with chunkIter := 0 } (pending b) := by
  have hreset : (world.reset order).wrappers[p]? = some { w with scan.chunkIter := 0 } := by
    rw [World.reset_wrappers, if_pos hp, hw, Option.map_some]
  have hunread := h.some hb hreset hfile
  rwa [Unread, if_pos hp] at hunread

/-- A new pass gives what the first pass of the view gives, exactly where it starts afresh. -/
theorem Merging.pass_iff (h : Merging files wrapperOf fresh []) (hfront : fresh.Front order)
    (horder : order.Nodup) (hmem : ∀ {p}, p ∈ order ↔ ∃ b, wrapperOf b = some p)
    (hcaches : fresh.CachesFrom world) (hsound : fresh.SchemataSound)
    (hholds : world.Holds files order (ContinuesFrom fresh)) {out : List (ℕ × RosMessage)}
    (hpass : fresh.Pass env order out none) :
    world.Pass env order out none ↔ world.Afresh env.codecs order := by
  have hmerging := h.of_holds (fun hb => hmem.2 ⟨_, hb⟩) hholds
  obtain ⟨pending₀, hpending₀, hmessages₀⟩ :=
    h.messages_of_pass hsound horder (fun p hp => hmem.1 hp) hpass
  constructor
  · intro hpass'
    obtain ⟨pending, hpending, hmessages⟩ :=
      hmerging.messages_of_pass hcaches.sound horder (fun p hp => hmem.1 hp) hpass'
    intro p hp
    obtain ⟨b, w, w₀, bag, hb, hw, hw₀, hbag, hfile, hsoundw, hcontinues⟩ := h.exists_continues hmem hholds hp
    obtain ⟨hbuffer, hbytes⟩ := hfront p hp w₀ hw₀
    refine ⟨w, bag, hw, ?_, ?_⟩
    · rw [hholds.files_eq, hbag]
      exact hfile
    · refine (afresh_iff hsoundw hcontinues hbuffer hbytes (remaining_of_reset hpending hp hb hw hfile)
        (remaining_of_reset hpending₀ hp hb hw₀ hfile)).1 ?_
      rw [Bag.forall₂_message_iff.1 (hmessages hfile), Bag.forall₂_message_iff.1 (hmessages₀ hfile)]
  · intro hafresh
    refine World.Twins.pass horder ⟨?_, List.nodup_nil, ?_, ?_, ?_, ?_⟩ hpass
    · rw [files_eq_of_bags (world.reset_bags order), files_eq_of_bags (fresh.reset_bags order),
        hholds.files_eq, h.files_eq]
    · intro bag hbag
      exact hsound bag (by rwa [fresh.reset_bags order] at hbag)
    · intro bag hbag
      exact hcaches.sound bag (by rwa [world.reset_bags order] at hbag)
    · rw [fresh.reset_bags order, world.reset_bags order]
      exact hcaches.missing
    · intro p hp
      replace hp : p ∈ order := hp.resolve_left List.not_mem_nil
      obtain ⟨b, w, w₀, bag, hb, hw, hw₀, hbag, hfile, hsoundw, hcontinues⟩ := h.exists_continues hmem hholds hp
      obtain ⟨hbuffer, hbytes⟩ := hfront p hp w₀ hw₀
      obtain ⟨v, bag', hv, hbag', hscan⟩ := hafresh p hp
      rw [hw] at hv
      cases hv
      rw [hholds.files_eq, hbag, hfile] at hbag'
      cases hbag'
      have hms₀ := remaining_of_reset hpending₀ hp hb hw₀ hfile
      obtain ⟨ms, hms⟩ := hscan.exists_remaining hsoundw hcontinues hbuffer hbytes hms₀
      have hsame := (afresh_iff hsoundw hcontinues hbuffer hbytes hms hms₀).2 hscan
      have hmessages := hmessages₀ hfile
      refine ⟨{ w₀ with scan.chunkIter := 0 }, { w with scan.chunkIter := 0 }, bag, ?_, ?_, ?_, ?_, ?_⟩
      · rw [World.reset_wrappers, if_pos hp, hw₀, Option.map_some]
      · rw [World.reset_wrappers, if_pos hp, hw, Option.map_some]
      · rw [files_eq_of_bags (fresh.reset_bags order), h.files_eq]
        rw [← hcontinues.bag, hbag]
        exact hfile
      · refine ⟨hcontinues.bag, ?_, ?_, pending₀ b, ms, hms₀, hms, ?_⟩
        · exact ⟨fun _ => hbytes, fun hne => absurd hbuffer hne⟩
        · exact ⟨hsoundw.front, fun hne => Nat.zero_lt_of_lt (hsoundw.inside hne)⟩
        · refine Bag.forall₂_same hmessages (Bag.forall₂_message_iff.2 ?_)
          rw [hsame]
          exact Bag.forall₂_message_iff.1 hmessages
      · exact fun hmem => absurd hmem List.not_mem_nil

end Afresh

/-- In every state that the calls on a fresh view come to, if every chunk has a context of its own. -/
theorem View.pass_iff_of_calls {env : Env} {selection : Selection} {view : View} {world : World}
    (hbags : ∀ b ∈ view.bags, b < world.bags.length) (hsound : world.SchemataSound) {order : List ℕ}
    (horder : order.Perm (view.getMessages selection world).2.wrappers) {out : List (ℕ × RosMessage)}
    (hpass : (view.getMessages selection world).1.Pass env order out none) (cs : List Call) :
    (({ world := (view.getMessages selection world).1 } : Session).calls env order cs).world.Pass
        env order out none ↔
      (({ world := (view.getMessages selection world).1 } : Session).calls env order cs).world.Afresh
        env.codecs order := by
  have hwrapped := wrapped_getMessages selection hbags
  have hfreshSound : (view.getMessages selection world).1.SchemataSound := by
    intro bag hbag
    exact hsound bag (by rwa [hwrapped.bags] at hbag)
  have hmem : ∀ {p}, p ∈ order ↔ ∃ b, wrapperOf selection view world b = some p := fun {p} =>
    horder.mem_iff.trans mem_wrappers_iff
  have hmerging : Merging world.files (wrapperOf selection view world)
      (view.getMessages selection world).1 [] := merging_getMessages hbags
  have hstart : ({ world := (view.getMessages selection world).1 } : Session).Holds world.files order
      (ContinuesFrom (view.getMessages selection world).1) := by
    refine ⟨⟨hmerging.files_eq, fun p hp => ?_⟩, fun it hit => by cases hit⟩
    obtain ⟨b, hb⟩ := hmem.1 hp
    obtain ⟨w, bag, hw, hscan, hfile, hsoundw⟩ := hmerging.wrapper hb
    exact ⟨w, bag, hw, by rw [hscan]; exact hfile, hsoundw, w, hw, rfl, rfl, rfl⟩
  have hcaches : World.CachesFrom (view.getMessages selection world).1
      ({ world := (view.getMessages selection world).1 } : Session).world := by
    refine ⟨hfreshSound, fun {b bag bag'} hbag hbag' => ?_⟩
    rw [hbag] at hbag'
    cases hbag'
    exact fun topic hmiss => hmiss
  refine hmerging.pass_iff (fun p hp w hw => ?_) (horder.nodup_iff.2 hwrapped.nodup) hmem
    (hcaches.calls cs) hfreshSound (hstart.calls (stable_continuesFrom _ _ _) cs).world hpass
  obtain ⟨b, hb⟩ := hmem.1 hp
  obtain ⟨bag, -, hw'⟩ := hwrapped.wrapper hb
  rw [hw] at hw'
  cases hw'
  obtain ⟨-, hbuffer, hbytes, -⟩ := wrapper_front selection b bag
  exact ⟨hbuffer, hbytes⟩

/-- In every state that the calls on a fresh view come to, whose chunks end with frames, with the context
that they have left. The pass of the fresh view may find it in another state. -/
theorem View.pass_iff_afresh {env : SharedEnv} {AtBoundary : env.lz4.Context → Prop}
    {IsFrame : Bytes → Bytes → Prop} (hlz4 : env.lz4.Documented AtBoundary IsFrame) {selection : Selection}
    {view : View} {world : World} (hbags : ∀ b ∈ view.bags, b < world.bags.length)
    (hsound : world.SchemataSound) {order : List ℕ}
    (horder : order.Perm (view.getMessages selection world).2.wrappers)
    (hends : (view.getMessages selection world).1.EndsWithFrames IsFrame order)
    {first context : env.lz4.Context} (hfirst : AtBoundary first) (hcontext : AtBoundary context)
    {out : List (ℕ × RosMessage)}
    (hpass : (view.getMessages selection world).1.PassShared env order first out none) (cs : List Call) :
    let st := Session.callsShared env order context { world := (view.getMessages selection world).1 } cs
    st.2.world.PassShared env order st.1 out none ↔ st.2.world.Afresh env.own.codecs order := by
  have hstart : ({ world := (view.getMessages selection world).1 } : Session).EndsWithFrames IsFrame order :=
    ⟨hends, by simp⟩
  obtain ⟨hlast, heq, hlastEnds⟩ := SharedEnv.callsShared_spec hlz4 hcontext hstart cs
  rw [SharedEnv.passShared_iff hlz4 hfirst hends] at hpass
  rw [← heq] at hlastEnds
  dsimp only
  rw [SharedEnv.passShared_iff hlz4 hlast hlastEnds.world, heq]
  exact pass_iff_of_calls hbags hsound horder hpass cs

theorem View.exists_pass_of_messages {env : Env} {selection : Selection} {fuel : ℕ} {view : View}
    {world : World} {out : List (ℕ × RosMessage)} (h : view.messages env selection fuel world = some out) :
    (view.getMessages selection world).1.Pass env (view.getMessages selection world).2.wrappers out none := by
  unfold messages at h
  rcases hbegin : (view.getMessages selection world).1.begin env
    (view.getMessages selection world).2.wrappers with ⟨world', e | it⟩
  · rw [hbegin] at h
    cases h
  · simp only [hbegin, Option.map_eq_some_iff] at h
    obtain ⟨⟨out', st'⟩, htake, rfl⟩ := h
    obtain ⟨hsteps, hend⟩ := steps_of_takeAll htake
    exact .ends hbegin hsteps hend

def framedWorld : World := { bags := [framedBag.bag] }

theorem lt_length_framedWorld : ∀ b ∈ ({ bags := [0] } : View).bags, b < framedWorld.bags.length := by
  simp [framedWorld]

theorem wrappers_framedWorld : (View.getMessages .all { bags := [0] } framedWorld).2.wrappers = [0] := by
  decide +kernel

theorem endsWithFrames_framedWorld :
    (View.getMessages .all { bags := [0] } framedWorld).1.EndsWithFrames IsSampleFrame [0] := by
  refine World.endsWithFrames_of_files (fun bag hbag => ?_) [0]
  have hbags := (View.wrapped_getMessages .all lt_length_framedWorld).bags
  rw [files_eq_of_bags hbags] at hbag
  obtain ⟨opened, hopened, rfl⟩ := List.mem_map.1 hbag
  have hbag : opened = framedBag.bag := List.mem_singleton.1 hopened
  rw [hbag]
  exact endsWithFrames_framedBag

theorem View.exists_pass_sample : ∃ out : List (ℕ × RosMessage), out.length = 1 ∧
    (View.getMessages .all { bags := [0] } framedWorld).1.PassShared sampleShared [0] sampleShared.lz4.created out
      none := by
  have hlength : (View.messages sampleShared.own .all 2 { bags := [0] } framedWorld).map List.length = some 1 := by
    decide +kernel
  obtain ⟨out, hout, hlen⟩ := Option.map_eq_some_iff.1 hlength
  refine ⟨out, hlen, ?_⟩
  exact (SharedEnv.passShared_iff documented_sampleShared documented_sampleShared.created endsWithFrames_framedWorld).2
    (exists_pass_of_messages hout)

theorem schemataSound_framedWorld : framedWorld.SchemataSound := by
  intro bag hbag
  have heq : bag = framedBag.bag := List.mem_singleton.1 hbag
  rw [heq]
  exact framedBag.opens_bag.schemata

theorem View.pass_iff_afresh_sample : ∃ out : List (ℕ × RosMessage), out.length = 1 ∧
    let st := Session.callsShared sampleShared [0] sampleShared.lz4.created
      { world := (View.getMessages .all { bags := [0] } framedWorld).1 } [.begin, .advance 0]
    (st.2.world.PassShared sampleShared [0] st.1 out none ↔ st.2.world.Afresh sampleShared.own.codecs [0]) := by
  obtain ⟨out, hlen, hpass⟩ := exists_pass_sample
  have horder : [0].Perm (View.getMessages .all { bags := [0] } framedWorld).2.wrappers := by
    rw [wrappers_framedWorld]
  have hiff := pass_iff_afresh documented_sampleShared lt_length_framedWorld schemataSound_framedWorld horder
    endsWithFrames_framedWorld documented_sampleShared.created documented_sampleShared.created hpass
    [.begin, .advance 0]
  exact ⟨out, hlen, hiff⟩

/-- The message that `begin` reads is not read again by the next one. -/
theorem View.not_afresh_sample : ∃ out : List (ℕ × RosMessage),
    (View.getMessages .all { bags := [0] } framedWorld).1.PassShared sampleShared [0] sampleShared.lz4.created out none ∧
      ¬ let st := Session.callsShared sampleShared [0] sampleShared.lz4.created
          { world := (View.getMessages .all { bags := [0] } framedWorld).1 } [.begin]
        st.2.world.PassShared sampleShared [0] st.1 out none := by
  obtain ⟨out, hlen, hpass⟩ := exists_pass_sample
  refine ⟨out, hpass, fun hagain => ?_⟩
  have hends : ((World.begin sampleShared.own [0] (World.begin sampleShared.own [0]
      (View.getMessages .all { bags := [0] } framedWorld).1).1).2.toOption.map Iterator.msgQueue) = some [] := by
    decide +kernel
  obtain ⟨hlast, heq, hlastEnds⟩ := @SharedEnv.callsShared_spec sampleShared _ IsSampleFrame sampleShared.lz4.created
    { world := (View.getMessages .all { bags := [0] } framedWorld).1 } [0] documented_sampleShared
    documented_sampleShared.created ⟨endsWithFrames_framedWorld, by simp⟩ [.begin]
  rw [← heq] at hlastEnds
  rw [SharedEnv.passShared_iff documented_sampleShared hlast hlastEnds.world, heq, Session.calls, List.foldl_cons,
    List.foldl_nil, Session.call_begin_world] at hagain
  cases hagain with
  | @ends world₁ it _ st hbegin hsteps _ =>
    rw [hbegin] at hends
    have hqueue : it.msgQueue = [] := Option.some.inj hends
    obtain ⟨rfl, -⟩ := hsteps.eq_of_atEnd (by simp [Iterator.atEnd, hqueue])
    cases hlen

end Embag
