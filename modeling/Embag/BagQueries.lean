import Embag.BagContents

/-! Asking bags and views for topics and connections. `connectionsForTopic` makes an entry for
a topic its bag does not have, and every query after it can tell. -/

namespace Embag

inductive Query where
  | topics (b : ℕ)
  | topicInBag (b : ℕ) (topic : Bytes)
  | connectionsForTopic (b : ℕ) (topic : Bytes)
  | connectionsByTopicMap (b : ℕ)
  | viewTopics (view : View)
  | viewConnectionsByTopicMap (view : View)

/-- What a query returns. Sets and maps are told apart by what they hold, and connections by
what is in their records. -/
inductive Answer where
  | topics (topics : Set Bytes)
  | topicInBag (found : Bool)
  | connections (records : List ConnectionRecord)
  | connectionsByTopic (listOf : Bytes → Option (List ConnectionData))

namespace World

/-- The answer to a query, if the pointer in it is one, and the world behind it. -/
def ask (world : World) : Query → World × Option Answer
  | .topics b => (world, (world.bags[b]?).map fun bag => .topics {t | t ∈ bag.topics})
  | .topicInBag b topic => (world, (world.bags[b]?).map fun bag => .topicInBag (bag.topicInBag topic))
  | .connectionsForTopic b topic =>
    match world.bags[b]? with
    | none => (world, none)
    | some bag =>
      let (bag, ids) := bag.connectionsForTopic topic
      ({ world with bags := world.bags.set b bag },
        some (.connections (ids.filterMap fun id => bag.connections[id]?)))
  | .connectionsByTopicMap b =>
    (world, (world.bags[b]?).map fun bag => .connectionsByTopic bag.connectionsByTopicMap.lookup)
  | .viewTopics view => (world, some (.topics {t | t ∈ view.topics world}))
  | .viewConnectionsByTopicMap view =>
    (world, some (.connectionsByTopic (view.connectionsByTopicMap world).lookup))

def askAll (world : World) (history : List Query) : World :=
  history.foldl (fun world q => (world.ask q).1) world

/-- After these queries every further one is answered as if they had not been asked. -/
def KeepsAnswers (world : World) (history : List Query) : Prop :=
  ∀ q, ((world.askAll history).ask q).2 = (world.ask q).2

def HasTopic (world : World) (b : ℕ) (topic : Bytes) : Prop :=
  ∃ bag, world.bags[b]? = some bag ∧ topic ∈ bag.topicConnectionMap

/-- The query asks for the connections of no topic that its bag lacks. -/
def Knows (world : World) : Query → Prop
  | .connectionsForTopic b topic => b < world.bags.length → world.HasTopic b topic
  | _ => True

variable {world : World} {q : Query} {b : ℕ} {topic : Bytes} {history : List Query}

@[simp] theorem length_bags_ask (world : World) (q : Query) :
    (world.ask q).1.bags.length = world.bags.length := by
  cases q with
  | connectionsForTopic b topic =>
    simp only [ask]
    split
    · rfl
    · simp
  | _ => rfl

theorem connectionsForTopic_eq {bag : Bag} (h : topic ∈ bag.topicConnectionMap) :
    (bag.connectionsForTopic topic).1 = bag := by
  obtain ⟨ids, hids⟩ := Option.isSome_iff_exists.1 (AList.lookup_isSome.2 h)
  rw [Bag.connectionsForTopic, hids]

theorem mem_connectionsForTopic {bag : Bag} {t : Bytes} :
    t ∈ (bag.connectionsForTopic topic).1.topicConnectionMap ↔
      t = topic ∨ t ∈ bag.topicConnectionMap := by
  unfold Bag.connectionsForTopic
  rcases hids : bag.topicConnectionMap.lookup topic with _ | ids
  · simp [AList.mem_insert]
  · have hmem : topic ∈ bag.topicConnectionMap := AList.lookup_isSome.1 (by simp [hids])
    simp only [iff_or_self]
    rintro rfl
    exact hmem

theorem ask_of_knows (h : world.Knows q) : (world.ask q).1 = world := by
  cases q with
  | connectionsForTopic b topic =>
    simp only [ask]
    rcases hbag : world.bags[b]? with _ | bag
    · rfl
    · obtain ⟨hlt, hget⟩ := List.getElem?_eq_some_iff.1 hbag
      obtain ⟨bag', hbag', hmem⟩ := h hlt
      rw [hbag] at hbag'
      cases hbag'
      simp only
      rw [connectionsForTopic_eq hmem, ← hget, List.set_getElem_self]
  | _ => rfl

theorem HasTopic.ask (h : world.HasTopic b topic) (q : Query) : (world.ask q).1.HasTopic b topic := by
  obtain ⟨bag, hbag, hmem⟩ := h
  cases q with
  | connectionsForTopic b' topic' =>
    simp only [World.ask]
    rcases hbag' : world.bags[b']? with _ | bag'
    · exact ⟨bag, hbag, hmem⟩
    · by_cases hne : b' = b
      · subst hne
        rw [hbag] at hbag'
        cases hbag'
        refine ⟨_, List.getElem?_set_self (List.getElem?_eq_some_iff.1 hbag).1, ?_⟩
        exact mem_connectionsForTopic.2 (.inr hmem)
      · refine ⟨bag, ?_, hmem⟩
        simp only
        rw [List.getElem?_set_ne hne, hbag]
  | _ => exact ⟨bag, hbag, hmem⟩

theorem HasTopic.askAll (h : world.HasTopic b topic) (history : List Query) :
    (world.askAll history).HasTopic b topic := by
  induction history generalizing world with
  | nil => exact h
  | cons q history ih =>
    apply ih
    exact h.ask q

theorem hasTopic_ask (hb : b < world.bags.length) :
    (world.ask (.connectionsForTopic b topic)).1.HasTopic b topic := by
  simp only [ask, List.getElem?_eq_getElem hb]
  refine ⟨_, List.getElem?_set_self hb, ?_⟩
  exact mem_connectionsForTopic.2 (.inl rfl)

/-- Whoever asks for a topic sees it from then on. -/
theorem hasTopic_askAll (hb : b < world.bags.length) (h : .connectionsForTopic b topic ∈ history) :
    (world.askAll history).HasTopic b topic := by
  induction history generalizing world with
  | nil => simp at h
  | cons q history ih =>
    rcases List.mem_cons.1 h with rfl | h
    · exact (hasTopic_ask hb).askAll history
    · apply ih
      · simpa using hb
      · exact h

theorem askAll_of_knows (h : ∀ q ∈ history, world.Knows q) : world.askAll history = world := by
  induction history with
  | nil => rfl
  | cons q history ih =>
    rw [List.forall_mem_cons] at h
    rw [askAll, List.foldl_cons, ask_of_knows h.1]
    exact ih h.2

theorem hasTopic_of_answer {world' : World} (hb : b < world.bags.length)
    (h : (world'.ask (.topics b)).2 = (world.ask (.topics b)).2) (htopic : world'.HasTopic b topic) :
    world.HasTopic b topic := by
  obtain ⟨bag, hbag, hmem⟩ := htopic
  have hget := List.getElem?_eq_getElem hb
  simp only [ask, hbag, hget, Option.map_some, Option.some.injEq, Answer.topics.injEq] at h
  refine ⟨_, hget, ?_⟩
  have hin : topic ∈ {t | t ∈ bag.topics} := hmem
  rw [h] at hin
  exact hin

/-- The answers stay the same just as long as nobody asks for the connections of a topic that
is not there. -/
theorem keepsAnswers_iff (world : World) (history : List Query) :
    world.KeepsAnswers history ↔ ∀ q ∈ history, world.Knows q := by
  constructor
  · intro h q hq
    cases q with
    | connectionsForTopic b topic =>
      intro hb
      apply hasTopic_of_answer hb (h (.topics b))
      exact hasTopic_askAll hb hq
    | _ => trivial
  · intro h q
    rw [askAll_of_knows h]

theorem not_keepsAnswers {bag : Bag} (h : topic ∉ bag.topicConnectionMap) :
    ¬ KeepsAnswers ⟨[bag], []⟩ [.connectionsForTopic 0 topic] := by
  intro hkeeps
  obtain ⟨bag', hbag', hmem⟩ := hasTopic_of_answer Nat.one_pos (hkeeps (.topics 0))
    (hasTopic_askAll Nat.one_pos List.mem_cons_self)
  cases hbag'
  exact h hmem

/-- Asking a bag for the connections of a topic that it does not have. -/
theorem not_keepsAnswers_sample :
    Bag.ofBytes (sampleBag false).encode = .ok (sampleOpened false) ∧
      ¬ KeepsAnswers ⟨[sampleOpened false], []⟩ [.connectionsForTopic 0 (bytes "/absent")] := by
  have habsent : bytes "/absent" ∉ (sampleOpened false).topicConnectionMap.keys := by decide +kernel
  exact ⟨ofBytes_sampleBag false, not_keepsAnswers fun hmem => habsent (AList.mem_keys.1 hmem)⟩

end World

end Embag
