import Mathlib.Logic.Relation
import Embag.BagRoundTrip
import Embag.ViewMerge

/-! The schema a message comes with. It is looked up by topic and cached, and what the cache
holds is what the definition of the topic's first connection parses to, in whatever order the
topics come up. -/

namespace Embag

namespace Bag

/-- What is parsed for a topic: the definition of its first connection. -/
def schemaOf (bag : Bag) (topic : Bytes) : Except Fault MsgDef :=
  match bag.topicConnectionMap.lookup topic with
  | none => .error (.runtimeError (bytes "Unable to find topic in bag: " ++ topic))
  | some [] => .error (.runtimeError (bytes "No connection data for topic: " ++ topic))
  | some (p :: _) =>
    match bag.connections[p]? with
    | none => .error .undefined
    | some connection => parseMsgDef connection.data.messageDefinition connection.data.type

/-- The cache has nothing but what would be parsed; a null pointer stands for a failure. -/
def SchemataSound (bag : Bag) : Prop :=
  ∀ topic schema, bag.messageSchemata.lookup topic = some schema →
    schema = (bag.schemaOf topic).toOption

variable {bag bag' : Bag} {leftFirst : Bool} {topic : Bytes}

theorem parseMsgDefForTopic_cases {r : Except Fault Unit}
    (h : bag.parseMsgDefForTopic leftFirst topic = (bag', r)) :
    (∃ m, bag.schemaOf topic = .ok m ∧ r = .ok () ∧
        bag' = { bag with messageSchemata := bag.messageSchemata.insert topic (some m) }) ∨
      ∃ e, bag.schemaOf topic = .error e ∧ r = .error e ∧
        (bag' = bag ∨ bag' = { bag with messageSchemata := emplace bag.messageSchemata topic none }) := by
  rw [parseMsgDefForTopic] at h
  rw [schemaOf]
  rcases hlookup : bag.topicConnectionMap.lookup topic with _ | _ | ⟨p, ps⟩
  · simp only [hlookup, Prod.mk.injEq] at h
    exact .inr ⟨_, rfl, h.2.symm, .inl h.1.symm⟩
  · simp only [hlookup, Prod.mk.injEq] at h
    exact .inr ⟨_, rfl, h.2.symm, .inl h.1.symm⟩
  simp only [hlookup] at h
  rcases hconnection : bag.connections[p]? with _ | connection
  · simp only [hconnection, Prod.mk.injEq] at h
    exact .inr ⟨_, by simp [hconnection], h.2.symm, .inl h.1.symm⟩
  simp only [hconnection] at h ⊢
  rcases hparse : parseMsgDef connection.data.messageDefinition connection.data.type with e | m
  · simp only [hparse] at h
    split_ifs at h
    · simp only [Prod.mk.injEq] at h
      exact .inr ⟨e, rfl, h.2.symm, .inr h.1.symm⟩
    · simp only [Prod.mk.injEq] at h
      exact .inr ⟨e, rfl, h.2.symm, .inl h.1.symm⟩
  · simp only [hparse, Prod.mk.injEq] at h
    exact .inl ⟨m, rfl, h.2.symm, h.1.symm⟩

theorem SchemataSound.insert (h : bag.SchemataSound) (topic : Bytes) :
    SchemataSound { bag with
      messageSchemata := bag.messageSchemata.insert topic (bag.schemaOf topic).toOption } := by
  intro topic' schema hlookup
  by_cases hne : topic' = topic
  · subst hne
    rw [AList.lookup_insert] at hlookup
    exact (Option.some.inj hlookup).symm
  · rw [AList.lookup_insert_ne hne] at hlookup
    exact h topic' schema hlookup

theorem SchemataSound.parseMsgDefForTopic (h : bag.SchemataSound) {r : Except Fault Unit}
    (hparse : bag.parseMsgDefForTopic leftFirst topic = (bag', r)) : bag'.SchemataSound := by
  rcases parseMsgDefForTopic_cases hparse with ⟨m, hm, -, rfl⟩ | ⟨e, he, -, rfl | rfl⟩
  · have hinsert := h.insert topic
    rwa [hm] at hinsert
  · exact h
  · have hinsert := h.insert topic
    rw [he] at hinsert
    rw [emplace]
    split_ifs
    · exact h
    · exact hinsert

theorem SchemataSound.msgDefForTopic (h : bag.SchemataSound) {r : Except Fault (Option MsgDef)}
    (hlookup : bag.msgDefForTopic leftFirst topic = (bag', r)) :
    bag'.SchemataSound ∧ ∀ schema, r = .ok schema → schema = (bag.schemaOf topic).toOption := by
  rw [Bag.msgDefForTopic] at hlookup
  rcases hcached : bag.messageSchemata.lookup topic with _ | schema
  · simp only [hcached] at hlookup
    rcases hparse : bag.parseMsgDefForTopic leftFirst topic with ⟨bag'', e | ⟨⟨⟩⟩⟩
    · simp only [hparse, Prod.mk.injEq] at hlookup
      obtain ⟨rfl, rfl⟩ := hlookup
      exact ⟨h.parseMsgDefForTopic hparse, by simp⟩
    · simp only [hparse, Prod.mk.injEq] at hlookup
      obtain ⟨rfl, rfl⟩ := hlookup
      refine ⟨h.parseMsgDefForTopic hparse, ?_⟩
      rintro schema ⟨⟩
      rcases parseMsgDefForTopic_cases hparse with ⟨m, hm, -, rfl⟩ | ⟨e, -, he, -⟩
      · simp [hm, Except.toOption]
      · cases he
  · simp only [hcached, Prod.mk.injEq] at hlookup
    obtain ⟨rfl, rfl⟩ := hlookup
    refine ⟨h, ?_⟩
    rintro schema ⟨⟩
    exact h topic _ hcached

end Bag

def World.SchemataSound (world : World) : Prop := ∀ bag ∈ world.bags, bag.SchemataSound

theorem Bag.file_schemaOf (bag : Bag) : bag.file.schemaOf = bag.schemaOf := rfl

theorem World.SchemataSound.set {world : World} (h : world.SchemataSound) {b : ℕ} {bag : Bag}
    (hbag : bag.SchemataSound) : World.SchemataSound { world with bags := world.bags.set b bag } := by
  intro bag' hmem
  rcases List.mem_or_eq_of_mem_set hmem with hmem | rfl
  · exact h bag' hmem
  · exact hbag

/-- The messages of a loop come with the schemas of their topics. -/
theorem Steps.schemas {env : Env} {st st' : World × Iterator} {out : List (ℕ × RosMessage)}
    (hsteps : Steps env st out st') (hsound : st.1.SchemataSound) :
    ∀ x ∈ out, ∃ bag, st.1.files[x.1]? = some bag ∧ x.2.msgDef = (bag.schemaOf x.2.topic).toOption := by
  induction hsteps with
  | refl => simp
  | @step world world₁ it m st st' out hderef hadvance _ ih =>
    obtain ⟨p, queue, w, bag, bag', hqueue, hw, hbag, -, hdef, rfl⟩ := Iterator.deref_ok hderef
    obtain ⟨p', queue', -, hread⟩ := Iterator.advance_ok hadvance
    obtain ⟨_, _, _, _, _, hbags, -⟩ := World.readMessage_ok hread
    have hlookup := (hsound bag (List.mem_of_getElem? hbag)).msgDefForTopic hdef
    have hfiles : st.1.files = world.files := by
      rw [files_eq_of_bags hbags]
      exact files_set hbag (Bag.file_of_msgDefForTopic hdef)
    intro x hx
    rcases List.mem_cons.1 hx with rfl | hx
    · refine ⟨bag.file, ?_, hlookup.2 _ rfl⟩
      have hfront : it.frontBag world = w.scan.bag := by simp [Iterator.frontBag, hqueue, hw]
      rw [hfront]
      exact files_getElem? hbag
    · rw [← hfiles]
      refine ih ?_ x hx
      intro bag'' hmem
      rw [hbags] at hmem
      exact hsound.set hlookup.1 bag'' hmem

end Embag
