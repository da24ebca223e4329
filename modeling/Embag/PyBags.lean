import Embag.PyMessages
import Embag.TypedBags

/-! `read_messages` of a bag in Python: a loop over it comes with the messages that were recorded, in their
order, and `dict` of each has the values that were published. -/

namespace Embag

open Loops Merge

/-- The object that `read_messages` is given for its topics. -/
inductive PyTopics where
  | none
  | str (topic : Bytes)
  | list (topics : List Bytes)
  | other

/-- The `getMessages` that `read_messages` calls for its topics. -/
def PyTopics.selection : PyTopics → Except Fault View.Selection
  | none => .ok .all
  | str topic => .ok (.topics [topic])
  | list topics => .ok (.topics topics)
  | other => .error (.runtimeError (bytes "topics must be None, a string, or a list!"))

/-- `read_messages`: the first iterator of a view that has only this bag, whose `end()` is the last one -/
def Bag.readMessages (env : Env) (bag : Bag) (topics : PyTopics) : Except Fault (World × Iterator) := do
  let selection ← topics.selection
  let (world, view) := View.getMessages selection { bags := [0] } { bags := [bag] }
  match world.begin env view.wrappers with
  | (_, .error e) => .error e
  | (world, .ok it) => return (world, it)

/-- What `IteratorCompat` makes of a message: its topic, its data and its time. -/
structure PyMessage where
  topic : Bytes
  data : List RosValue
  timestamp : TimeValue

def IsUtf8 (s : Bytes) : Prop := (ByteArray.mk s.toArray).validateUTF8 = true

instance (s : Bytes) : Decidable (IsUtf8 s) := inferInstanceAs (Decidable (_ = true))

/-- What Python makes of a `std::string`, which has to be UTF-8. -/
def pyStr (s : Bytes) : Except Fault Bytes :=
  if IsUtf8 s then .ok s else .error (.runtimeError (bytes "UnicodeDecodeError"))

namespace IteratorCompat

def deref (env : Env) (fuel : ℕ) (it : Iterator) (world : World) : World × Except Fault PyMessage :=
  match it.deref env world with
  | (world, .error e) => (world, .error e)
  | (world, .ok msg) => (world, do
    let data ← msg.parse fuel
    return ⟨← pyStr msg.topic, data, msg.timestamp⟩)

/-- What a loop to the end comes with, of at most so many turns; `fuel` is that of a message. -/
def collect (env : Env) (fuel : ℕ) : ℕ → World × Iterator → Except Fault (List PyMessage)
  | 0, _ => .error .outOfFuel
  | turns + 1, (world, it) =>
    if it.atEnd then .ok []
    else
      match deref env fuel it world with
      | (_, .error e) => .error e
      | (world, .ok msg) =>
        match it.advance env world with
        | (_, .error e) => .error e
        | (st, .ok _) => do return msg :: (← collect env fuel turns st)

end IteratorCompat

def RosValue.dict (base : List RosValue) (asMemoryview : Bool) (fuel : ℕ) (arrayBlobTypes : List RosValueType)
    (q : Pointer) : Except Fault PyData := do
  let v ← q.deref base
  let data ← match v.getType with
    | .object => rosValueToDict base (rosValueToPyData base asMemoryview fuel arrayBlobTypes) q
    | .array => rosValueToList base (rosValueToPyData base asMemoryview fuel arrayBlobTypes) q
    | .primitiveArray =>
      primitiveArrayToPyObject base (rosValueToPyData base asMemoryview fuel) arrayBlobTypes asMemoryview q
    | _ => .error (.runtimeError (bytes "Somehow you have a RosValue whose type is primitive"))
  return data.assigned

/-- The message is the published one, and `dict` of its data has the published values. Arrays become blocks of
bytes unless the message ends in an empty array. -/
structure PyMessage.Shows (fuel : ℕ) (msg : PyMessage) (x : Published) : Prop where
  topic : msg.topic = x.topic
  timestamp : msg.timestamp = x.time
  data : ∀ mv types, (types = [] ∨ ¬ MessageEndsInEmptyArray x.definition x.values) → ∃ data,
    RosValue.dict msg.data mv fuel types (.slot 0) = .ok data ∧ data.ShowsMessage x.definition mv types x.values ∧
    ∀ path o, data.follow path = some (.cast o) → PyObject.Leads msg.data (.value (.slot 0)) path o

theorem RosValue.dict_of_object {base : List RosValue} {c : RosValueList} {fieldIndexes : FieldIndexes}
    (h : base[0]? = some (.object c fieldIndexes)) (mv : Bool) (fuel : ℕ) (types : List RosValueType) :
    RosValue.dict base mv fuel types (.slot 0) = RosMessage.dict base mv fuel types := by
  rw [RosValue.dict, RosMessage.dict, messageDict, deref_slot h, ok_bind, ok_bind]
  rfl

theorem RosMessage.Carries.exists_shows {m : RosMessage} {x : Published} (h : m.Carries x)
    (hnames : x.definition.PlainNames) {fuel : ℕ} (hdepth : depthList x.values < fuel)
    (hheight : heightList x.values < fuel) : ∃ values, m.parse fuel = .ok values ∧ PyMessage.Shows fuel ⟨m.topic, values, m.timestamp⟩ x := by
  obtain ⟨buffer, hbuffer, hocc⟩ := h.holds.rawBuffer
  obtain ⟨s, c, fieldIndexes, hs, hroot, hdict⟩ := MessageParser.exists_messageDict_leads
    (p := ⟨buffer, x.definition⟩) x.resolved x.distinct x.typed hdepth hheight hocc
  refine ⟨s.rosValues, ?_, h.topic, h.timestamp, fun mv types hend => ?_⟩
  · simp only [RosMessage.parse, h.holds.msgDef, hbuffer, hs]
    rfl
  · obtain ⟨data, hdata, hshows, hleads⟩ := hdict mv types fun htypes _ => hend.resolve_left htypes
    refine ⟨data, ?_, hshows, hleads⟩
    rw [RosValue.dict_of_object hroot, RosMessage.dict, hdata]
    exact congrArg Except.ok (hshows.assigned_eq x.distinct hnames x.typed.length)

theorem IteratorCompat.exists_collect {env : Env} {st st' : World × Iterator} {out : List (ℕ × RosMessage)}
    {merged : List (ℕ × Published)} (hsteps : Steps env st out st') (hend : st'.2.atEnd)
    (hcarries : List.Forall₂ (fun x y => y.1 = x.1 ∧ x.2.Carries y.2) out merged) {fuel turns : ℕ}
    (hfuel : ∀ y ∈ merged, depthList y.2.values < fuel ∧ heightList y.2.values < fuel)
    (htexts : ∀ y ∈ merged, IsUtf8 y.2.topic ∧ y.2.definition.PlainNames) (hturns : merged.length < turns) :
    ∃ msgs, collect env fuel turns st = .ok msgs ∧
      List.Forall₂ (PyMessage.Shows fuel) msgs (merged.map Prod.snd) := by
  obtain ⟨turns, rfl⟩ : ∃ k, turns = k + 1 := ⟨turns - 1, by omega⟩
  induction hsteps generalizing merged turns with
  | @refl st =>
    cases hcarries
    exact ⟨[], if_pos hend, .nil⟩
  | @step world world' it m st st' out hderef hadvance _ ih =>
    obtain ⟨y, rest, ⟨-, hy⟩, hrest, rfl⟩ := List.forall₂_cons_left_iff.1 hcarries
    rw [List.forall_mem_cons] at hfuel htexts
    obtain ⟨turns, rfl⟩ : ∃ k, turns = k + 1 := ⟨turns - 1, by rw [List.length_cons] at hturns; omega⟩
    have hne : ¬ it.atEnd := by
      obtain ⟨p, queue, _, _, _, hqueue, -⟩ := Iterator.deref_ok hderef
      simp [Iterator.atEnd, hqueue]
    obtain ⟨values, hvalues, hshows⟩ := hy.exists_shows htexts.1.2 hfuel.1.1 hfuel.1.2
    obtain ⟨msgs, hmsgs, hall⟩ := ih hend hrest hfuel.2 htexts.2 turns (by rw [List.length_cons] at hturns; omega)
    have hread : deref env fuel it world = (world', .ok ⟨m.topic, values, m.timestamp⟩) := by
      have htopic : pyStr m.topic = .ok m.topic := if_pos (hy.topic ▸ htexts.1.1)
      rw [deref, hderef]
      simp only [hvalues, ok_bind, htopic]
      rfl
    refine ⟨_ :: msgs, ?_, .cons hshows hall⟩
    rw [collect, if_neg hne]
    simp only [hread, hadvance, hmsgs]
    rfl

/-- A loop over `read_messages` comes with the messages that were recorded of the topics, in their order. -/
theorem Bag.readMessages_published {env : Env} {f : StoredBag} {bag : Bag} {xs : List Published}
    (hbag : Bag.ofBytes f.encode = .ok bag) (hcodecs : f.Decompresses env.codecs) (hrecords : f.Records xs)
    {topics : PyTopics} {selection : View.Selection} (htopics : topics.selection = .ok selection)
    (hindexed : topics ≠ .none → f.Indexed) (htexts : ∀ x ∈ xs, IsUtf8 x.topic ∧ x.definition.PlainNames) :
    ∃ bound, ∀ fuel ≥ bound, ∃ msgs,
      (bag.readMessages env topics >>= IteratorCompat.collect env fuel fuel) = .ok msgs ∧
      List.Forall₂ (PyMessage.Shows fuel) msgs (xs.filter fun x => selection.wants x.topic) := by
  have hrecorded : World.RecordedFrom { bags := [bag] } env.codecs [f] fun _ => xs := by
    refine ⟨.cons (BagFile.opens_of_ofBytes hbag) .nil, fun b f' hf' => ?_⟩
    rw [List.mem_singleton.1 (List.mem_of_getElem? hf')]
    exact ⟨hcodecs, hrecords⟩
  have hbags : ∀ b ∈ ({ bags := [0] } : View).bags, b < ({ bags := [bag] } : World).bags.length := by
    intro b hb
    rw [List.mem_singleton.1 hb]
    exact Nat.one_pos
  have hasked : ∀ asked, selection = .topics asked → ∀ f' ∈ [f], f'.Indexed := by
    rintro asked rfl f' hf'
    rw [List.mem_singleton.1 hf']
    apply hindexed
    rintro rfl
    cases htopics
  obtain ⟨merged, ⟨st, out, st', hbegin, hsteps, hend, hreads⟩, hmerged⟩ :=
    @View.exists_passes env selection { bags := [0] } _ _ _ hrecorded hbags hasked _ (List.Perm.refl _)
  have hcarries := hreads.imp fun _ _ h => And.intro h.1 h.2.1
  have hone : merged.map Prod.snd = xs.filter fun x => selection.wants x.topic := by
    have hsingle := hmerged.single (i := 0) fun j hj => by simp [View.published, hj]
    rw [hsingle]
    simp [View.published]
  have hplain : ∀ y ∈ merged, IsUtf8 y.2.topic ∧ y.2.definition.PlainNames := by
    intro y hy
    have hmem := List.mem_map_of_mem (f := Prod.snd) hy
    rw [hone] at hmem
    exact htexts y.2 (List.mem_filter.1 hmem).1
  obtain ⟨bound, hbound⟩ := exists_bound_published merged
  refine ⟨bound + merged.length + 1, fun fuel hfuel => ?_⟩
  have hread : bag.readMessages env topics = .ok st := by
    rw [Bag.readMessages, htopics, ok_bind]
    simp only [hbegin]
    rfl
  obtain ⟨msgs, hmsgs, hall⟩ :=
    IteratorCompat.exists_collect hsteps hend hcarries (hbound fuel (by omega)) hplain
      (show merged.length < fuel by omega)
  rw [hread, ← hone]
  exact ⟨msgs, hmsgs, hall⟩

theorem texts_pairPublished : ∀ x ∈ pairPublished, IsUtf8 x.topic ∧ x.definition.PlainNames := by
  have hfirst : IsUtf8 pairFirst.topic ∧ pairFirst.definition.PlainNames :=
    ⟨by decide +kernel, plainNames_of_empty rfl (by decide +kernel)⟩
  have hsecond : ∀ third, IsUtf8 (pairSecond third).topic ∧ (pairSecond third).definition.PlainNames :=
    fun third => ⟨by decide +kernel +revert, plainNames_of_empty rfl (by decide +kernel +revert)⟩
  simp only [pairPublished, List.forall_mem_cons, List.not_mem_nil, false_imp_iff, implies_true, and_true]
  exact ⟨hfirst, hsecond false, hsecond true⟩

theorem Bag.readMessages_published_sample : ∃ bound, ∀ fuel ≥ bound, ∃ msgs,
    (pairBag.bag.readMessages sampleEnv (.str (bytes "/a")) >>= IteratorCompat.collect sampleEnv fuel fuel) =
      .ok msgs ∧
    List.Forall₂ (PyMessage.Shows fuel) msgs
      (pairPublished.filter fun x => (View.Selection.topics [bytes "/a"]).wants x.topic) :=
  Bag.readMessages_published pairBag.ofBytes_bag (decompresses_pairBag _) records_pairBag rfl
    (fun _ => StoredBag.indexed_pairBag) texts_pairPublished

end Embag
