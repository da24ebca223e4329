import Embag.ViewPasses

/-! Messages and the connections they belong to. A message is of the connection that its record
names, and its schema is that of the first connection of the topic: when they agree. -/

namespace Embag

open Loops

def CurrentMessage.OfRecord (m : CurrentMessage) : Prop :=
  ∃ buffer p p' record header, scanRecord buffer p = (p', .ok record) ∧
    readMessageHeader buffer record = .ok header ∧ header.op = 2 ∧
    m = {
      connectionId := header.connectionId
      messageBuffer := some buffer
      messageDataOffset := record.data.toNat
      messageLen := record.dataLen
      timestamp := header.timestamp }

def World.QueueRead (world : World) (queue : List ℕ) : Prop :=
  ∀ p ∈ queue, ∃ w, world.wrappers[p]? = some w ∧ w.current.OfRecord

def Session.QueuesRead (s : Session) : Prop := ∀ it ∈ s.iterators, s.world.QueueRead it.msgQueue

section Scan

variable {bag : Bag} {codecs : Codecs} {s s' : Scan} {buffer : Bytes} {m : CurrentMessage}

theorem Scan.readRecord_ofRecord (hread : s.readRecord buffer = (s', some (.ok (some m)))) : m.OfRecord := by
  unfold readRecord at hread
  rcases hscan : scanRecord buffer s.processedBytes with ⟨p', e | record⟩
  · simp [hscan] at hread
  rcases hheader : readMessageHeader buffer record with e | header
  · simp [hscan, hheader] at hread
  simp only [hscan, hheader] at hread
  split_ifs at hread with hop hid hop'
  · simp only [Prod.mk.injEq, Option.some.injEq, Except.ok.injEq] at hread
    exact ⟨buffer, _, p', record, header, hscan, hheader, hop, hread.2.symm⟩
  · simp at hread
  · simp at hread
  · simp at hread

theorem Scan.readMessage_ofRecord (hread : s.readMessage bag codecs = (s', .ok (some m))) : m.OfRecord := by
  have hturn : ∀ {s s' : Scan} {r : Except Fault (Option CurrentMessage)}, turn bag codecs s = (s', some r) →
      ∀ m, r = .ok (some m) → m.OfRecord := by
    intro s s' r hturn m hm
    subst hm
    rcases turn_cases hturn with ⟨-, -, hr⟩ | ⟨p, -, ⟨-, ⟨⟨e, hr⟩, -⟩ | ⟨chunk, buffer, -, -, -, hr, -⟩⟩ |
      ⟨buffer, -, ⟨-, hrecord⟩ | ⟨-, hr, -⟩⟩⟩
    · cases hr
    · cases hr
    · cases hr
    · exact readRecord_ofRecord hrecord
    · cases hr
  exact iterate_rule (I := fun _ => True)
    (Q := fun _ _ (r : Except Fault (Option CurrentMessage)) => ∀ m, r = .ok (some m) → m.OfRecord)
    (fun _ h => hturn h) (fun _ _ => ⟨trivial, fun _ _ h => h⟩) trivial (readMessage_eq hread) m rfl

end Scan

section World

variable {env : Env} {world world' : World} {p : ℕ} {queue queue' : List ℕ}

theorem World.QueueRead.resetIter (h : world.QueueRead queue) (p : ℕ) :
    (world.resetIter p).QueueRead queue := by
  intro q hq
  obtain ⟨w, hw, hcurrent⟩ := h q hq
  rw [resetIter_wrappers, hw]
  split_ifs
  · exact ⟨_, rfl, hcurrent⟩
  · exact ⟨w, rfl, hcurrent⟩

theorem World.QueueRead.readMessage (h : world.QueueRead queue) (env : Env) (p : ℕ) (queue₁ : List ℕ) :
    (world.readMessage env p queue₁).1.QueueRead queue := by
  intro q hq
  obtain ⟨v, hv, hcurrent⟩ := h q hq
  rcases hw : world.wrappers[p]? with _ | w
  · rw [World.readMessage, hw]
    exact ⟨v, hv, hcurrent⟩
  rcases hbag : world.bags[w.scan.bag]? with _ | bag
  · rw [World.readMessage, hw]
    simp only [hbag]
    exact ⟨v, hv, hcurrent⟩
  obtain ⟨w', hwrappers, -, -, herror, hnone, hsome⟩ := readMessage_effect env queue₁ hw hbag
  rw [hwrappers]
  by_cases hqp : q = p
  · subst hqp
    rw [hv] at hw
    cases hw
    refine ⟨w', List.getElem?_set_self (List.getElem?_eq_some_iff.1 hv).1, ?_⟩
    rcases hread : v.scan.readMessage bag env.codecs with ⟨scan, e | _ | m⟩
    · rw [(herror e (by rw [hread])).1]
      exact hcurrent
    · rw [(hnone (by rw [hread])).1]
      exact hcurrent
    · rw [(hsome m (by rw [hread])).1]
      exact Scan.readMessage_ofRecord hread
  · rw [List.getElem?_set_ne (Ne.symm hqp)]
    exact ⟨v, hv, hcurrent⟩

theorem World.QueueRead.readMessage_queue (h : world.QueueRead queue)
    (hread : world.readMessage env p queue = (world', .ok queue')) : world'.QueueRead queue' := by
  have hkept := h.readMessage env p queue
  rw [hread] at hkept
  obtain ⟨w, bag, scan, hw, -, -, ⟨-, -, rfl⟩ | ⟨current, hscan, hwrappers, rfl⟩⟩ := readMessage_ok hread
  · exact hkept
  · intro q hq
    rcases List.mem_cons.1 ((env.heap.push_perm _ _ _).mem_iff.1 hq) with rfl | hq
    · refine ⟨{ scan, current }, ?_, Scan.readMessage_ofRecord hscan⟩
      rw [hwrappers]
      exact List.getElem?_set_self (List.getElem?_eq_some_iff.1 hw).1
    · exact hkept q hq

theorem World.QueueRead.beginLoop (h : world.QueueRead queue) {other : List ℕ} (hother : world.QueueRead other)
    (env : Env) (ps : List ℕ) :
    (world.beginLoop env ps queue).1.QueueRead other ∧
      ∀ queue', (world.beginLoop env ps queue).2 = .ok queue' →
        (world.beginLoop env ps queue).1.QueueRead queue' := by
  induction ps generalizing world queue with
  | nil =>
    refine ⟨hother, fun queue' heq => ?_⟩
    cases heq
    exact h
  | cons p ps ih =>
    have hkept := (hother.resetIter p).readMessage env p queue
    unfold World.beginLoop
    rcases hread : (world.resetIter p).readMessage env p queue with ⟨world₁, e | queue₁⟩
    · rw [hread] at hkept
      refine ⟨hkept, fun queue' heq => ?_⟩
      cases heq
    · rw [hread] at hkept
      exact ih ((h.resetIter p).readMessage_queue hread) hkept

end World

section Session

variable {env : Env} {order : List ℕ} {s : Session}

theorem Session.QueuesRead.call_begin (h : s.QueuesRead) (env : Env) (order : List ℕ) :
    (s.call env order .begin).1.QueuesRead := by
  have hempty : s.world.QueueRead [] := List.forall_mem_nil _
  have hkept : ∀ it ∈ s.iterators, (s.world.beginLoop env order []).1.QueueRead it.msgQueue :=
    fun it hit => (hempty.beginLoop (h it hit) env order).1
  have hnew := (hempty.beginLoop hempty env order).2
  unfold Session.call World.begin
  rcases hloop : s.world.beginLoop env order [] with ⟨world, e | queue⟩
  · rw [hloop] at hkept
    exact hkept
  · rw [hloop] at hkept hnew
    intro it hit
    rcases List.mem_append.1 hit with hit | hit
    · exact hkept it hit
    · cases List.mem_singleton.1 hit
      exact hnew queue rfl

theorem Session.QueuesRead.call_advance (h : s.QueuesRead) (env : Env) (order : List ℕ) (i : ℕ) :
    (s.call env order (.advance i)).1.QueuesRead := by
  rcases hit : s.iterators[i]? with _ | it
  · simp only [Session.call, hit]
    exact h
  have hqueue := h it (List.mem_of_getElem? hit)
  simp only [Session.call, hit]
  rcases hfront : it.msgQueue with _ | ⟨p, rest⟩
  · simp only [Iterator.advance, hfront]
    exact forall_mem_set h hqueue
  have hpop : s.world.QueueRead (env.heap.pop s.world.compare it.msgQueue) := by
    intro q hq
    apply hqueue
    rw [hfront] at hq ⊢
    exact List.mem_cons_of_mem _ ((env.heap.pop_perm _ _ _).mem_iff.1 hq)
  have hkept : ∀ queue, s.world.QueueRead queue →
      (s.world.readMessage env p (env.heap.pop s.world.compare it.msgQueue)).1.QueueRead queue :=
    fun queue hqueue => hqueue.readMessage env p _
  simp only [Iterator.advance, hfront]
  rw [← hfront]
  rcases hread : s.world.readMessage env p (env.heap.pop s.world.compare it.msgQueue) with ⟨world, e | queue⟩
  · rw [hread] at hkept
    exact forall_mem_set (fun it' hit' => hkept _ (h it' hit')) (hkept _ hpop)
  · have hnew := hpop.readMessage_queue hread
    rw [hread] at hkept
    exact forall_mem_set (fun it' hit' => hkept _ (h it' hit')) hnew

theorem Session.QueuesRead.call (h : s.QueuesRead) (env : Env) (order : List ℕ) (c : Call) :
    (s.call env order c).1.QueuesRead := by
  cases c with
  | begin => exact h.call_begin env order
  | copy i =>
    intro it hit
    rcases List.mem_append.1 hit with hit | hit
    · exact h it hit
    · exact h it (List.mem_of_getElem? (Option.mem_toList.1 hit))
  | deref i =>
    rcases hit : s.iterators[i]? with _ | it
    · simp only [Session.call, hit]
      exact h
    · simp only [Session.call, hit]
      rcases it.deref_bags env s.world with hsame | ⟨b, bag, bag', topic, r, -, -, hworld⟩
      · rw [hsame]
        exact h
      · rw [hworld]
        exact h
  | advance i => exact h.call_advance env order i

theorem Session.QueuesRead.calls (h : s.QueuesRead) (env : Env) (order : List ℕ) (cs : List Call) :
    (s.calls env order cs).QueuesRead := by
  induction cs generalizing s with
  | nil => exact h
  | cons c cs ih => exact ih (h.call env order c)

end Session

def Session.messageAt (s : Session) (i : ℕ) : Option (ℕ × CurrentMessage) := do
  let it ← s.iterators[i]?
  let p ← it.msgQueue.head?
  let w ← s.world.wrappers[p]?
  return (w.scan.bag, w.current)

/-- The message has the checksum of this connection, and its definition as the schema. -/
structure RosMessage.DecodedBy (m : RosMessage) (c : FileConnection) : Prop where
  md5 : m.md5 = c.md5sum
  msgDef : ∃ d, parseMsgDef c.messageDefinition c.type = .ok d ∧ m.msgDef = some d

def BagFile.FirstAlike (f : BagFile) (c : FileConnection) : Prop :=
  ∀ first, f.firstOf c.topic = some first →
    parseMsgDef first.messageDefinition first.type = parseMsgDef c.messageDefinition c.type

/-- The message that iterator `i` is at is of the connection `c`, the one that its record names. -/
structure Session.At (files : List StoredBag) (s : Session) (i : ℕ) (f : StoredBag) (c : FileConnection) :
    Prop where
  message : ∃ b current, s.messageAt i = some (b, current) ∧ current.OfRecord ∧ files[b]? = some f ∧
    c.id = current.connectionId
  mem : c ∈ f.connections

section Session

variable {env : Env} {order : List ℕ} {s : Session} {files : List StoredBag} {f f' : StoredBag}
  {c c' : FileConnection} {i : ℕ}

theorem Session.At.unique (h : s.At files i f c) (h' : s.At files i f' c') : f' = f ∧ c' = c := by
  obtain ⟨b, current, hat, -, hf, hid⟩ := h.message
  obtain ⟨b', current', hat', -, hf', hid'⟩ := h'.message
  rw [hat] at hat'
  cases hat'
  rw [hf] at hf'
  cases hf'
  exact ⟨rfl, BagFile.eq_of_id h'.mem h.mem (hid'.trans hid.symm)⟩

theorem Session.call_files (env : Env) (order : List ℕ) (s : Session) (c : Call) :
    (s.call env order c).1.world.files = s.world.files := by
  cases c with
  | begin =>
    rw [Session.call_begin_world]
    exact files_eq_of_bags (World.begin_bags env order s.world)
  | copy i => rfl
  | deref i =>
    rcases hit : s.iterators[i]? with _ | it
    · simp only [Session.call, hit]
    · simp only [Session.call, hit]
      rcases it.deref_bags env s.world with hsame | ⟨b, bag, bag', topic, r, hbag, hdef, hworld⟩
      · rw [hsame]
      · rw [hworld]
        exact files_set hbag (Bag.file_of_msgDefForTopic hdef)
  | advance i =>
    rcases hit : s.iterators[i]? with _ | it
    · simp only [Session.call, hit]
    · simp only [Session.call, hit]
      exact files_eq_of_bags (it.advance_bags env s.world)

theorem Session.calls_files (env : Env) (order : List ℕ) (s : Session) (cs : List Call) :
    (s.calls env order cs).world.files = s.world.files := by
  induction cs generalizing s with
  | nil => rfl
  | cons c cs ih => exact (ih (s.call env order c).1).trans (s.call_files env order c)

theorem Session.QueuesRead.messageAt (h : s.QueuesRead) {b : ℕ} {current : CurrentMessage}
    (hat : s.messageAt i = some (b, current)) : current.OfRecord := by
  obtain ⟨it, hit, hrest⟩ := Option.bind_eq_some_iff.1 hat
  obtain ⟨p, hp, hrest⟩ := Option.bind_eq_some_iff.1 hrest
  obtain ⟨w, hw, hresult⟩ := Option.bind_eq_some_iff.1 hrest
  obtain ⟨v, hv, hrecord⟩ := h it (List.mem_of_getElem? hit) p (List.mem_of_mem_head? hp)
  rw [hw] at hv
  cases hv
  cases hresult
  exact hrecord

theorem World.OpenedFrom.calls {files : List BagFile} (h : s.world.OpenedFrom files) (env : Env)
    (order : List ℕ) (cs : List Call) {b : ℕ} {bag : Bag}
    (hbag : (s.calls env order cs).world.bags[b]? = some bag) : ∃ f, files[b]? = some f ∧ f.Opens bag := by
  have hcaches : s.world.CachesFrom s.world := by
    refine ⟨h.schemataSound, fun {b bag bag'} hbag hbag' => ?_⟩
    rw [hbag] at hbag'
    cases hbag'
    exact fun _ hmiss => hmiss
  have hcalls : s.world.CachesFrom (s.calls env order cs).world := hcaches.calls cs
  have hsound := hcalls.sound bag (List.mem_of_getElem? hbag)
  have hfile := files_getElem? hbag
  rw [Session.calls_files] at hfile
  obtain ⟨bag₀, hbag₀, hsame⟩ := exists_bag_of_files rfl hfile
  obtain ⟨f, hf, hopens⟩ := h.opens hbag₀
  obtain ⟨opened, hopened, hopenedFile⟩ := hopens.file
  exact ⟨f, hf, ⟨opened, hopened, hsame.symm.trans hopenedFile⟩, hsound⟩

end Session

/-- What comes with a message, by the connection that its record names. -/
theorem BagFile.Opens.exists_decodedBy {f : StoredBag} {bag bag' : Bag} {leftFirst : Bool} {current : CurrentMessage}
    {m : RosMessage} (h : f.toBagFile.Opens bag) (hshows : Shows bag current m)
    (hdef : bag.msgDefForTopic leftFirst m.topic = (bag', .ok m.msgDef)) :
    ∃ c ∈ f.connections, c.id = current.connectionId ∧ (m.DecodedBy c ↔ f.toBagFile.FirstAlike c) := by
  obtain ⟨connection, hconnection, htopic, hmd5⟩ := hshows.connection
  obtain ⟨c, hc, hid, rfl⟩ := h.exists_connection hconnection
  obtain ⟨first, -, hfirst⟩ := BagFile.exists_firstOf hc
  obtain ⟨d, hd⟩ := f.accepted c hc
  have hschema : m.msgDef = (parseMsgDef first.messageDefinition first.type).toOption := by
    rw [← h.schemaOf hfirst, (h.schemata.msgDefForTopic hdef).2 _ rfl, htopic]
    rfl
  refine ⟨c, hc, hid, ?_, ?_⟩
  · rintro ⟨-, d', hd', hm⟩ first' hfirst'
    rw [hfirst] at hfirst'
    cases hfirst'
    rw [hschema] at hm
    rcases hparse : parseMsgDef first.messageDefinition first.type with e | d₁
    · rw [hparse] at hm
      cases hm
    · rw [hparse] at hm
      rw [hd', ← Option.some.inj hm]
  · intro halike
    refine ⟨hmd5, d, hd, ?_⟩
    rw [hschema, halike first hfirst, hd]
    rfl

def View.session (selection : Selection) (view : View) (world : World) : Session where
  world := (view.getMessages selection world).1

/-- In every state that a view of opened bags is brought to: a message is decoded by its own
connection exactly if the first connection of the topic is like it. -/
theorem View.decodedBy_iff {env : Env} {selection : Selection} {view : View} {world : World}
    {files : List StoredBag} (hopened : world.OpenedFrom (files.map StoredBag.toBagFile))
    (hbags : ∀ b ∈ view.bags, b < world.bags.length) (order : List ℕ) (cs : List Call) {i : ℕ} {m : RosMessage}
    (h : (((view.session selection world).calls env order cs).call env order (.deref i)).2 = .ok (some m)) :
    (∃ f c, ((view.session selection world).calls env order cs).At files i f c) ∧
      ∀ f c, ((view.session selection world).calls env order cs).At files i f c →
        (m.DecodedBy c ↔ f.FirstAlike c) := by
  have hstart : (view.session selection world).world.OpenedFrom (files.map StoredBag.toBagFile) := by
    unfold World.OpenedFrom View.session
    rw [(wrapped_getMessages selection hbags).bags]
    exact hopened
  have hnew : (view.session selection world).QueuesRead := by
    intro it hit
    cases hit
  have hread := hnew.calls env order cs
  have hopens : ∀ {b : ℕ} {bag : Bag}, ((view.session selection world).calls env order cs).world.bags[b]? =
      some bag → ∃ f, (files.map StoredBag.toBagFile)[b]? = some f ∧ f.Opens bag :=
    fun hbag => hstart.calls env order cs hbag
  generalize (view.session selection world).calls env order cs = s at h hread hopens ⊢
  rcases hit : s.iterators[i]? with _ | it
  · simp [Session.call, hit] at h
  rcases hderef : it.deref env s.world with ⟨world', e | m'⟩
  · simp [Session.call, hit, hderef, Except.map] at h
  simp only [Session.call, hit, hderef, Except.map, Except.ok.injEq, Option.some.injEq] at h
  subst h
  obtain ⟨p, queue, w, bag, bag', hqueue, hw, hbag, hshows, hdef, -⟩ := Iterator.deref_ok hderef
  obtain ⟨f', hf', hfile⟩ := hopens hbag
  rw [List.getElem?_map, Option.map_eq_some_iff] at hf'
  obtain ⟨f, hf, rfl⟩ := hf'
  obtain ⟨c, hc, hid, hiff⟩ := hfile.exists_decodedBy hshows hdef
  have hmessage : s.messageAt i = some (w.scan.bag, w.current) := by
    simp [Session.messageAt, hit, hqueue, hw]
  have hat : s.At files i f c := ⟨⟨w.scan.bag, w.current, hmessage, hread.messageAt hmessage, hf, hid⟩, hc⟩
  refine ⟨⟨f, c, hat⟩, fun f₁ c₁ hat₁ => ?_⟩
  obtain ⟨rfl, rfl⟩ := hat.unique hat₁
  exact hiff

def sampleBegun : Session :=
  (View.session .all { bags := [0] } { bags := [sampleOpened false] }).calls sampleEnv [0] [.begin]

theorem View.decodedBy_sample : ∃ m, (sampleBegun.call sampleEnv [0] (.deref 0)).2 = .ok (some m) ∧
    (∃ f c, sampleBegun.At [sampleBag false] 0 f c) ∧
    ∀ f c, sampleBegun.At [sampleBag false] 0 f c → (m.DecodedBy c ↔ f.FirstAlike c) := by
  have hsome : (sampleBegun.call sampleEnv [0] (.deref 0)).2.toOption.join.isSome := by decide +kernel
  rcases hderef : (sampleBegun.call sampleEnv [0] (.deref 0)).2 with e | _ | m
  · simp [hderef, Except.toOption] at hsome
  · simp [hderef, Except.toOption] at hsome
  · have hopened : World.OpenedFrom ([sampleBag false].map StoredBag.toBagFile) { bags := [sampleOpened false] } :=
      StoredBag.openedFrom_sample false
    exact ⟨m, rfl, View.decodedBy_iff hopened (by simp) [0] [.begin] hderef⟩

/-- The message of the second connection comes with the definition of the first. -/
theorem View.not_decodedBy_sample : ∃ m c, (sampleBegun.call sampleEnv [0] (.deref 0)).2 = .ok (some m) ∧
    sampleBegun.At [sampleBag false] 0 (sampleBag false) c ∧ ¬ m.DecodedBy c := by
  have hname : (sampleBegun.call sampleEnv [0] (.deref 0)).2.toOption.join.map (fun m =>
      m.msgDef.map fun d => d.name) = some (some (bytes "a/A")) := by decide +kernel
  have hid : (sampleBegun.messageAt 0).map (fun x => (x.1, x.2.connectionId)) = some (0, 1) := by decide +kernel
  have hread : sampleBegun.QueuesRead := by
    apply Session.QueuesRead.calls
    intro it hit
    cases hit
  rcases hderef : (sampleBegun.call sampleEnv [0] (.deref 0)).2 with e | _ | m
  · simp [hderef, Except.toOption] at hname
  · simp [hderef, Except.toOption] at hname
  refine ⟨m, sampleConnection true, rfl, ⟨?_, ?_⟩, ?_⟩
  · obtain ⟨⟨b, current⟩, hat, hpair⟩ := Option.map_eq_some_iff.1 hid
    obtain ⟨rfl, hcurrent⟩ := Prod.mk.inj hpair
    exact ⟨0, current, hat, hread.messageAt hat, rfl, hcurrent.symm⟩
  · exact List.mem_cons_of_mem _ List.mem_cons_self
  · intro hdecoded
    obtain ⟨d, hd, hm⟩ := hdecoded.msgDef
    have hown : (parseMsgDef (sampleConnection true).messageDefinition (sampleConnection true).type).toOption.map
        (fun d => d.name) = some (bytes "a/B") := by decide +kernel
    rw [hd] at hown
    simp only [hderef, Except.toOption, Option.join_some, Option.map_some, hm, Option.some.injEq] at hname hown
    rw [hname] at hown
    revert hown
    decide

end Embag
