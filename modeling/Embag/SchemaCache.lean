import Embag.ViewPasses

/-! The cache of schemas over a history of lookups: what each returns or throws, and what a
failure leaves behind. -/

namespace Embag

namespace Bag

def FailsToParse (bag : Bag) (topic : Bytes) : Prop :=
  ∃ p ps connection e, bag.topicConnectionMap.lookup topic = some (p :: ps) ∧
    bag.connections[p]? = some connection ∧
    parseMsgDef connection.data.messageDefinition connection.data.type = .error e

def msgDefsForTopics (leftFirst : Bool) : List Bytes → Bag → Bag × List (Except Fault (Option MsgDef))
  | [], bag => (bag, [])
  | topic :: topics, bag =>
    let (bag, r) := bag.msgDefForTopic leftFirst topic
    let (bag, rs) := bag.msgDefsForTopics leftFirst topics
    (bag, r :: rs)

/-- Every call has the result of parsing the definition anew, and the cache has no entry for
what did not parse. -/
structure CacheTransparent (leftFirst : Bool) (topics : List Bytes) (bag : Bag) : Prop where
  results : (bag.msgDefsForTopics leftFirst topics).2 =
    topics.map fun topic => (bag.schemaOf topic).map some
  entries : ∀ topic ∈ (bag.msgDefsForTopics leftFirst topics).1.messageSchemata,
    ∃ m, bag.schemaOf topic = .ok m

section Histories

variable {bag bag' : Bag} {leftFirst : Bool} {topic : Bytes} {topics : List Bytes}

theorem FailsToParse.schemaOf (h : bag.FailsToParse topic) : ∃ e, bag.schemaOf topic = .error e := by
  obtain ⟨p, ps, connection, e, hlookup, hconnection, hparse⟩ := h
  refine ⟨e, ?_⟩
  unfold Bag.schemaOf
  simp only [hlookup, hconnection, hparse]

theorem FailsToParse.of_file (h : bag.FailsToParse topic) (hfile : bag'.file = bag.file) :
    bag'.FailsToParse topic := by
  have hmap : bag'.file.topicConnectionMap = bag.file.topicConnectionMap := by rw [hfile]
  have hconnections : bag'.file.connections = bag.file.connections := by rw [hfile]
  obtain ⟨p, ps, connection, e, hlookup, hconnection, hparse⟩ := h
  exact ⟨p, ps, connection, e, by rw [← hlookup]; exact congrArg _ hmap,
    by rw [← hconnection]; exact congrArg (fun cs => cs[p]?) hconnections, hparse⟩

theorem schemaOf_of_file (hfile : bag'.file = bag.file) : bag'.schemaOf = bag.schemaOf := by
  rw [← file_schemaOf, hfile, file_schemaOf]

/-- The cache has the definitions of topics that parse and nothing else. -/
def Clean (bag : Bag) : Prop :=
  ∀ topic schema, bag.messageSchemata.lookup topic = some schema →
    ∃ m, bag.schemaOf topic = .ok m ∧ schema = some m

theorem clean_file (bag : Bag) : bag.file.Clean := by
  intro topic schema hlookup
  have hnone : bag.file.messageSchemata.lookup topic = none := AList.lookup_empty topic
  rw [hnone] at hlookup
  cases hlookup

theorem Clean.insert (h : bag.Clean) {m : MsgDef} (hm : bag.schemaOf topic = .ok m) :
    Clean { bag with messageSchemata := bag.messageSchemata.insert topic (some m) } := by
  intro topic' schema hlookup
  by_cases hne : topic' = topic
  · subst hne
    rw [AList.lookup_insert] at hlookup
    exact ⟨m, hm, (Option.some.inj hlookup).symm⟩
  · rw [AList.lookup_insert_ne hne] at hlookup
    exact h topic' schema hlookup

/-- A call that throws leaves no entry, if the right side of the assignment is evaluated first or
what it throws does not come from there. -/
theorem parseMsgDefForTopic_of_error (hfails : leftFirst = false ∨ ¬ bag.FailsToParse topic) {e : Fault}
    (h : bag.schemaOf topic = .error e) : bag.parseMsgDefForTopic leftFirst topic = (bag, .error e) := by
  unfold Bag.schemaOf at h
  unfold parseMsgDefForTopic
  rcases hlookup : bag.topicConnectionMap.lookup topic with _ | _ | ⟨p, ps⟩
  · simp only [hlookup, Except.error.injEq] at h ⊢
    rw [h]
  · simp only [hlookup, Except.error.injEq] at h ⊢
    rw [h]
  simp only [hlookup] at h ⊢
  rcases hconnection : bag.connections[p]? with _ | connection
  · simp only [hconnection, Except.error.injEq] at h ⊢
    rw [h]
  simp only [hconnection] at h ⊢
  rw [h]
  have hfalse : leftFirst = false := by
    apply hfails.resolve_right
    exact not_not_intro ⟨p, ps, connection, e, hlookup, hconnection, h⟩
  simp [hfalse]

theorem Clean.msgDefForTopic (h : bag.Clean) (hfails : leftFirst = false ∨ ¬ bag.FailsToParse topic)
    {r : Except Fault (Option MsgDef)} (hlookup : bag.msgDefForTopic leftFirst topic = (bag', r)) :
    r = (bag.schemaOf topic).map some ∧ bag'.Clean := by
  rcases hschema : bag.schemaOf topic with e | m
  · unfold Bag.msgDefForTopic at hlookup
    rcases hcached : bag.messageSchemata.lookup topic with _ | schema
    · simp only [hcached, parseMsgDefForTopic_of_error hfails hschema, Prod.mk.injEq] at hlookup
      obtain ⟨rfl, rfl⟩ := hlookup
      exact ⟨rfl, h⟩
    · obtain ⟨m, hm, -⟩ := h topic schema hcached
      rw [hschema] at hm
      cases hm
  have hok : ∃ schema, r = .ok schema := by
    unfold Bag.msgDefForTopic at hlookup
    rcases hcached : bag.messageSchemata.lookup topic with _ | schema
    · rcases hparse : bag.parseMsgDefForTopic leftFirst topic with ⟨bag₁, r₁⟩
      rcases parseMsgDefForTopic_cases hparse with ⟨m', -, rfl, -⟩ | ⟨e, he, -⟩
      · simp only [hcached, hparse, Prod.mk.injEq] at hlookup
        exact ⟨_, hlookup.2.symm⟩
      · rw [hschema] at he
        cases he
    · simp only [hcached, Prod.mk.injEq] at hlookup
      exact ⟨schema, hlookup.2.symm⟩
  obtain ⟨schema, rfl⟩ := hok
  rcases msgDefForTopic_ok_cases hlookup with ⟨hcached, rfl⟩ | ⟨m', -, hm', rfl, rfl⟩
  · obtain ⟨m', hm', rfl⟩ := h topic schema hcached
    rw [hschema] at hm'
    cases hm'
    exact ⟨rfl, h⟩
  · have hinsert := h.insert hm'
    rw [hschema] at hm'
    cases hm'
    exact ⟨rfl, hinsert⟩

theorem Clean.msgDefsForTopics (h : bag.Clean)
    (hfails : leftFirst = false ∨ ∀ topic ∈ topics, ¬ bag.FailsToParse topic) :
    (bag.msgDefsForTopics leftFirst topics).2 = topics.map (fun topic => (bag.schemaOf topic).map some) ∧
      (bag.msgDefsForTopics leftFirst topics).1.Clean ∧
      (bag.msgDefsForTopics leftFirst topics).1.file = bag.file := by
  induction topics generalizing bag with
  | nil => exact ⟨rfl, h, rfl⟩
  | cons topic topics ih =>
    rcases hlookup : bag.msgDefForTopic leftFirst topic with ⟨bag₁, r⟩
    have hfile := file_of_msgDefForTopic hlookup
    obtain ⟨hr, hclean⟩ := h.msgDefForTopic (hfails.imp_right fun hall => hall topic (by simp)) hlookup
    have hfails₁ : leftFirst = false ∨ ∀ topic ∈ topics, ¬ bag₁.FailsToParse topic := by
      apply hfails.imp_right
      intro hall topic' hmem hfail
      exact hall topic' (List.mem_cons_of_mem _ hmem) (hfail.of_file hfile.symm)
    obtain ⟨hrs, hclean', hfile'⟩ := ih hclean hfails₁
    simp only [Bag.msgDefsForTopics, hlookup]
    refine ⟨?_, hclean', hfile'.trans hfile⟩
    rw [hrs, hr, schemaOf_of_file hfile, List.map_cons]

/-- With the left side first a definition that fails to parse leaves an entry. -/
theorem FailsToParse.mem_msgDefForTopic (h : bag.FailsToParse topic) :
    topic ∈ (bag.msgDefForTopic true topic).1.messageSchemata := by
  unfold Bag.msgDefForTopic
  rcases hcached : bag.messageSchemata.lookup topic with _ | schema
  · obtain ⟨p, ps, connection, e, hlookup, hconnection, hparse⟩ := h
    simp only [parseMsgDefForTopic, hlookup, hconnection, hparse, ↓reduceIte]
    exact mem_emplace.2 (.inl rfl)
  · exact AList.lookup_isSome.1 (by simp [hcached])

theorem mem_of_msgDefsForTopics (h : topic ∈ bag.messageSchemata) :
    topic ∈ (bag.msgDefsForTopics leftFirst topics).1.messageSchemata := by
  induction topics generalizing bag with
  | nil => exact h
  | cons topic' topics ih =>
    obtain ⟨schema, hschema⟩ := Option.isSome_iff_exists.1 (AList.lookup_isSome.2 h)
    rcases hlookup : bag.msgDefForTopic leftFirst topic' with ⟨bag₁, r⟩
    simp only [Bag.msgDefsForTopics, hlookup]
    apply ih
    apply AList.lookup_isSome.1
    simp [lookup_msgDefForTopic hlookup hschema]

theorem FailsToParse.mem_msgDefsForTopics (h : bag.FailsToParse topic) (hmem : topic ∈ topics) :
    topic ∈ (bag.msgDefsForTopics true topics).1.messageSchemata := by
  induction topics generalizing bag with
  | nil => cases hmem
  | cons topic' topics ih =>
    rcases hlookup : bag.msgDefForTopic true topic' with ⟨bag₁, r⟩
    simp only [Bag.msgDefsForTopics, hlookup]
    rcases List.mem_cons.1 hmem with rfl | hmem
    · apply mem_of_msgDefsForTopics
      have hentry := h.mem_msgDefForTopic
      rwa [hlookup] at hentry
    · exact ih (h.of_file (file_of_msgDefForTopic hlookup)) hmem

end Histories

/-- For every history of lookups in a bag that was just opened: the cache is transparent unless
the left side of the assignment is evaluated first and the definition of a topic fails to parse. -/
theorem cacheTransparent_iff (bag : Bag) (leftFirst : Bool) (topics : List Bytes) :
    bag.file.CacheTransparent leftFirst topics ↔
      leftFirst = false ∨ ∀ topic ∈ topics, ¬ bag.FailsToParse topic := by
  constructor
  · intro h
    by_contra hnot
    push Not at hnot
    obtain ⟨hleft, topic, hmem, hfails⟩ := hnot
    obtain rfl : leftFirst = true := by simpa using hleft
    have hfile : bag.file.FailsToParse topic := hfails.of_file (file_file bag)
    obtain ⟨m, hm⟩ := h.entries topic (hfile.mem_msgDefsForTopics hmem)
    obtain ⟨e, he⟩ := hfile.schemaOf
    rw [hm] at he
    cases he
  · intro h
    have hfails : leftFirst = false ∨ ∀ topic ∈ topics, ¬ bag.file.FailsToParse topic := by
      apply h.imp_right
      intro hall topic hmem hfail
      exact hall topic hmem (hfail.of_file (file_file bag).symm)
    obtain ⟨hresults, hclean, hfile⟩ := (clean_file bag).msgDefsForTopics hfails
    refine ⟨hresults, fun topic hmem => ?_⟩
    obtain ⟨schema, hschema⟩ := Option.isSome_iff_exists.1 (AList.lookup_isSome.2 hmem)
    obtain ⟨m, hm, -⟩ := hclean topic schema hschema
    rw [schemaOf_of_file (hfile.trans (file_file bag))] at hm
    exact ⟨m, hm⟩

end Bag

section Sample

open LittleEndian

/-- A connection whose definition lacks the name of its field. -/
def unparsedConnection : FileConnection where
  id := 0
  topic := bytes "/a"
  type := bytes "a/A"
  md5sum := bytes "1"
  messageDefinition := bytes "int8"
  callerid := none
  latching := none
  header := .of [(bytes "op", [7]), (bytes "conn", le 4 0), (bytes "topic", bytes "/a")] (by decide)
  fields := .of [(bytes "type", bytes "a/A"), (bytes "md5sum", bytes "1"),
    (bytes "message_definition", bytes "int8")] (by decide)
  idFits := zero_fits
  topic_ne := a_ne_nil
  headerHas := List.Subset.refl _
  fieldsHas := List.Subset.refl _
  hasCallerid := by (show _ ∉ _); decide
  hasLatching := by (show _ ∉ _); decide

def unparsedBag : BagFile where
  record := {
    header := .of [(bytes "op", [3]), (bytes "index_pos", le 8 90),
      (bytes "conn_count", le 4 1), (bytes "chunk_count", le 4 0)] (by decide)
    data := []
    fits := nil_fits }
  chunks := []
  padding := []
  connections := [unparsedConnection]
  infos := []
  trailer := []
  has := by decide +kernel
  ids := List.Perm.refl _
  infosOf := List.Perm.refl _
  positions := by simp
  counts := by simp
  indexed := by simp
  messages := by simp
  connectionsFit := one_fits
  chunksFit := zero_fits
  size := by decide +kernel

end Sample

/-- The second call for the topic returns a null pointer. -/
theorem Bag.not_cacheTransparent_sample : Bag.ofBytes unparsedBag.encode = .ok unparsedBag.bag ∧
    ¬ unparsedBag.bag.file.CacheTransparent true [bytes "/a", bytes "/a"] := by
  refine ⟨unparsedBag.ofBytes_bag, fun h => ?_⟩
  have hnull : ((unparsedBag.bag.file.msgDefsForTopics true [bytes "/a", bytes "/a"]).2[1]?.map
      Except.toOption) = some (some none) := by decide +kernel
  rw [h.results] at hnull
  rcases hschema : unparsedBag.bag.file.schemaOf (bytes "/a") with e | m
  · simp [hschema, Except.map, Except.toOption] at hnull
  · simp [hschema, Except.map, Except.toOption] at hnull

end Embag
