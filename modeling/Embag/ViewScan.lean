import Embag.View

/-! The messages of a bag in file order, and the scan that gives them one by one: what is
still to come is described at every place where the scan of a wrapper can stand. -/

namespace Embag

open Loops

def Record.message (buffer : Bytes) (record : Record) (header : MessageHeader) : CurrentMessage where
  connectionId := header.connectionId
  messageBuffer := some buffer
  messageDataOffset := record.data.toNat
  messageLen := record.dataLen
  timestamp := header.timestamp

/-- The message of a MESSAGE_DATA record; a CONNECTION record has none. -/
def Record.messages (buffer : Bytes) (record : Record) (header : MessageHeader) :
    List CurrentMessage :=
  if header.op = 2 then [record.message buffer header] else []

inductive ChunkMessages (buffer : Bytes) (size : ℕ) : ℕ → List CurrentMessage → Prop
  | nil {p : ℕ} (h : size ≤ p) : ChunkMessages buffer size p []
  | cons {p p' : ℕ} {record : Record} {header : MessageHeader} {ms : List CurrentMessage}
    (hp : p < size) (hscan : scanRecord buffer p = (p', .ok record))
    (hheader : readMessageHeader buffer record = .ok header) (hop : header.op = 2 ∨ header.op = 7)
    (rest : ChunkMessages buffer size p' ms) :
    ChunkMessages buffer size p (record.messages buffer header ++ ms)

def Bag.ChunkHolds (bag : Bag) (codecs : Codecs) (p : ℕ) (ms : List CurrentMessage) : Prop :=
  ∃ chunk buffer, bag.chunks[p]? = some chunk ∧ 0 < chunk.uncompressedSize ∧
    chunk.decompress codecs bag.bagBytes = (buffer, .ok ()) ∧
    ChunkMessages buffer chunk.uncompressedSize 0 ms

def Bag.ChunksHold (bag : Bag) (codecs : Codecs) : List ℕ → List (List CurrentMessage) → Prop :=
  List.Forall₂ (bag.ChunkHolds codecs)

def Scan.wanted (s : Scan) (ms : List CurrentMessage) : List CurrentMessage :=
  ms.filter fun m => m.connectionId ∈ s.connectionIds

theorem Scan.wanted_append (s : Scan) (ms ms' : List CurrentMessage) :
    s.wanted (ms ++ ms') = s.wanted ms ++ s.wanted ms' := List.filter_append ..

/-- What the scan has still to give, between two chunks and within one. -/
inductive Remaining (bag : Bag) (codecs : Codecs) (s : Scan) : List CurrentMessage → Prop
  | between {mss : List (List CurrentMessage)} (noBuffer : s.currentBuffer = none)
    (front : s.processedBytes = 0)
    (chunks : bag.ChunksHold codecs (s.chunksToParse.drop s.chunkIter) mss) :
    Remaining bag codecs s (s.wanted mss.flatten)
  | within {buffer : Bytes} {here : List CurrentMessage} {mss : List (List CurrentMessage)}
    (hasBuffer : s.currentBuffer = some buffer)
    (inside : s.chunkIter < s.chunksToParse.length)
    (records : ChunkMessages buffer s.uncompressedSize s.processedBytes here)
    (chunks : bag.ChunksHold codecs (s.chunksToParse.drop (s.chunkIter + 1)) mss) :
    Remaining bag codecs s (s.wanted (here ++ mss.flatten))

section Record

variable {buffer : Bytes} {size p : ℕ}

theorem chunkMessages_nil_iff (h : size ≤ p) {ms : List CurrentMessage} :
    ChunkMessages buffer size p ms ↔ ms = [] := by
  constructor
  · intro hms
    cases hms with
    | nil => rfl
    | cons hp => omega
  · rintro rfl
    exact .nil h

theorem chunkMessages_cons_iff (h : p < size) {ms : List CurrentMessage} :
    ChunkMessages buffer size p ms ↔ ∃ p' record header rest,
      scanRecord buffer p = (p', .ok record) ∧ readMessageHeader buffer record = .ok header ∧
      (header.op = 2 ∨ header.op = 7) ∧ ms = record.messages buffer header ++ rest ∧
      ChunkMessages buffer size p' rest := by
  constructor
  · intro hms
    cases hms with
    | nil hle => omega
    | cons hp hscan hheader hop rest => exact ⟨_, _, _, _, hscan, hheader, hop, rfl, rest⟩
  · rintro ⟨p', record, header, rest, hscan, hheader, hop, rfl, hrest⟩
    exact .cons h hscan hheader hop hrest

theorem scanRecord_lt {p' : ℕ} {record : Record} (h : scanRecord buffer p = (p', .ok record)) :
    p < p' := by
  simp only [scanRecord] at h
  split at h
  · simp at h
  · split at h
    · simp at h
    · split at h
      · simp at h
      · split at h
        · simp at h
        · simp only [Prod.mk.injEq] at h
          omega

/-- Where reading a record ends: it fails, or it gives the messages it has that are wanted. -/
theorem Scan.readRecord_cases {s s' : Scan} {r : Option (Except Fault (Option CurrentMessage))}
    (hp : s.processedBytes < s.uncompressedSize) (h : s.readRecord buffer = (s', r)) :
    ∃ p', s' = { s with processedBytes := p' } ∧
      ((∃ e, r = some (.error e)) ∧
          (∀ ms, ¬ ChunkMessages buffer s.uncompressedSize s.processedBytes ms) ∨
        s.processedBytes < p' ∧ ∃ found,
          (∀ ms, ChunkMessages buffer s.uncompressedSize s.processedBytes ms ↔
            ∃ rest, ms = found ++ rest ∧ ChunkMessages buffer s.uncompressedSize p' rest) ∧
          (r = none ∧ s.wanted found = [] ∨ ∃ m, r = some (.ok (some m)) ∧ s.wanted found = [m])) := by
  rw [readRecord] at h
  simp only [chunkMessages_cons_iff hp]
  rcases hscan : scanRecord buffer s.processedBytes with ⟨p', _ | record⟩
  · simp only [hscan, Prod.mk.injEq] at h
    obtain ⟨rfl, rfl⟩ := h
    exact ⟨p', rfl, .inl ⟨⟨_, rfl⟩, by simp⟩⟩
  simp only [hscan] at h
  have hlt := scanRecord_lt hscan
  rcases hheader : readMessageHeader buffer record with _ | header
  · simp only [hheader, Prod.mk.injEq] at h
    obtain ⟨rfl, rfl⟩ := h
    refine ⟨p', rfl, .inl ⟨⟨_, rfl⟩, ?_⟩⟩
    rintro ms ⟨_, _, _, _, heq, hread, _⟩
    cases heq
    simp [hheader] at hread
  simp only [hheader] at h
  -- the messages of the record are the same, however the rest goes on
  have hfound : (header.op = 2 ∨ header.op = 7) → ∀ ms,
      (∃ p'' record' header' rest, ((p', Except.ok record) : ℕ × Except Fault Record) =
          (p'', .ok record') ∧ readMessageHeader buffer record' = .ok header' ∧
          (header'.op = 2 ∨ header'.op = 7) ∧ ms = record'.messages buffer header' ++ rest ∧
          ChunkMessages buffer s.uncompressedSize p'' rest) ↔
        ∃ rest, ms = record.messages buffer header ++ rest ∧
          ChunkMessages buffer s.uncompressedSize p' rest := by
    intro hop ms
    constructor
    · rintro ⟨_, _, _, rest, heq, hread, _, hms, hrest⟩
      cases heq
      rw [hheader] at hread
      cases hread
      exact ⟨rest, hms, hrest⟩
    · rintro ⟨rest, hms, hrest⟩
      exact ⟨_, _, _, rest, rfl, hheader, hop, hms, hrest⟩
  split_ifs at h with hop hid hop'
  all_goals
    simp only [Prod.mk.injEq] at h
    obtain ⟨rfl, rfl⟩ := h
  · refine ⟨p', rfl, .inr ⟨hlt, _, hfound (.inl hop), .inr ⟨_, rfl, ?_⟩⟩⟩
    simp [wanted, Record.messages, Record.message, hop, hid]
  · refine ⟨p', rfl, .inr ⟨hlt, _, hfound (.inl hop), .inl ⟨rfl, ?_⟩⟩⟩
    simp [wanted, Record.messages, Record.message, hop, hid]
  · refine ⟨p', rfl, .inr ⟨hlt, _, hfound (.inr hop'), .inl ⟨rfl, ?_⟩⟩⟩
    simp [wanted, Record.messages, hop]
  · refine ⟨p', rfl, .inl ⟨⟨_, rfl⟩, ?_⟩⟩
    rintro ms ⟨_, _, _, _, heq, hread, hops, _⟩
    cases heq
    rw [hheader] at hread
    cases hread
    simp [hop, hop'] at hops

end Record

namespace Scan

variable {bag : Bag} {codecs : Codecs} {s s' : Scan}

/-- What holds of a scan wherever it stands. -/
structure Sound (s : Scan) : Prop where
  front : s.currentBuffer = none → s.processedBytes = 0
  inside : s.currentBuffer ≠ none → s.chunkIter < s.chunksToParse.length

theorem turn_cases {r : Option (Except Fault (Option CurrentMessage))}
    (h : turn bag codecs s = (s', r)) :
    s.chunksToParse[s.chunkIter]? = none ∧ s' = s ∧ r = some (.ok none) ∨
    ∃ p, s.chunksToParse[s.chunkIter]? = some p ∧
      (s.currentBuffer = none ∧
          ((∃ e, r = some (.error e)) ∧ (s' = s ∨ ∃ buffer, s' = { s with currentBuffer := some buffer }) ∧
              (∀ ms, ¬ bag.ChunkHolds codecs p ms) ∨
            ∃ chunk buffer, bag.chunks[p]? = some chunk ∧ 0 < chunk.uncompressedSize ∧
              chunk.decompress codecs bag.bagBytes = (buffer, .ok ()) ∧ r = none ∧
              s' = { s with currentBuffer := some buffer, uncompressedSize := chunk.uncompressedSize }) ∨
        ∃ buffer, s.currentBuffer = some buffer ∧
          (s.processedBytes < s.uncompressedSize ∧ s.readRecord buffer = (s', r) ∨
            s.uncompressedSize ≤ s.processedBytes ∧ r = none ∧
              s' = { s with chunkIter := s.chunkIter + 1, currentBuffer := none, processedBytes := 0 })) := by
  rw [turn] at h
  rcases hp : s.chunksToParse[s.chunkIter]? with _ | p
  · simp only [hp, Prod.mk.injEq] at h
    exact .inl ⟨rfl, h.1.symm, h.2.symm⟩
  simp only [hp] at h
  refine .inr ⟨p, rfl, ?_⟩
  rcases hbuffer : s.currentBuffer with _ | buffer
  · simp only [hbuffer] at h
    refine .inl ⟨rfl, ?_⟩
    rcases hchunk : bag.chunks[p]? with _ | chunk
    · simp only [hchunk, Prod.mk.injEq] at h
      obtain ⟨rfl, rfl⟩ := h
      refine .inl ⟨⟨_, rfl⟩, .inl rfl, ?_⟩
      rintro ms ⟨chunk, _, hsome, _⟩
      simp [hchunk] at hsome
    simp only [hchunk, atIndex, List.length_replicate] at h
    by_cases hsize : 0 < chunk.uncompressedSize
    · simp only [hsize, if_true] at h
      rcases hdecompress : chunk.decompress codecs bag.bagBytes with ⟨buffer, _ | ⟨⟨⟩⟩⟩
      · simp only [hdecompress, Prod.mk.injEq] at h
        obtain ⟨rfl, rfl⟩ := h
        refine .inl ⟨⟨_, rfl⟩, .inr ⟨_, rfl⟩, ?_⟩
        rintro ms ⟨chunk', _, hsome, _, hok, _⟩
        rw [hchunk] at hsome
        cases hsome
        simp [hdecompress] at hok
      · simp only [hdecompress, Prod.mk.injEq] at h
        obtain ⟨rfl, rfl⟩ := h
        exact .inr ⟨chunk, buffer, rfl, hsize, hdecompress, rfl, rfl⟩
    · simp only [hsize, if_false, Prod.mk.injEq] at h
      obtain ⟨rfl, rfl⟩ := h
      refine .inl ⟨⟨_, rfl⟩, .inr ⟨_, rfl⟩, ?_⟩
      rintro ms ⟨chunk', _, hsome, hpos, _⟩
      rw [hchunk] at hsome
      cases hsome
      exact hsize hpos
  · simp only [hbuffer] at h
    refine .inr ⟨buffer, rfl, ?_⟩
    split_ifs at h with hlt
    · exact .inl ⟨hlt, h⟩
    · simp only [Prod.mk.injEq] at h
      exact .inr ⟨Nat.le_of_not_lt hlt, h.2.symm, h.1.symm⟩

theorem drop_of_getElem? {l : List ℕ} {i p : ℕ} (h : l[i]? = some p) :
    l.drop i = p :: l.drop (i + 1) := by
  obtain ⟨hi, rfl⟩ := List.getElem?_eq_some_iff.1 h
  exact List.drop_eq_getElem_cons hi

theorem turn_lt (h : turn bag codecs s = (s', none)) : s'.turnsLeft bag < s.turnsLeft bag := by
  rcases turn_cases h with ⟨-, -, hr⟩ | ⟨p, hp, hcase⟩
  · simp at hr
  have hdrop := drop_of_getElem? hp
  rcases hcase with ⟨hbuffer, ⟨⟨_, hr⟩, -⟩ | ⟨chunk, buffer, hchunk, -, -, -, rfl⟩⟩ |
    ⟨buffer, hbuffer, ⟨hlt, hread⟩ | ⟨hle, -, rfl⟩⟩
  · simp at hr
  · simp only [turnsLeft, hbuffer, hdrop, List.map_cons, List.sum_cons, hchunk, Option.elim_some]
    omega
  · obtain ⟨p', rfl, hcase⟩ := readRecord_cases hlt hread
    rcases hcase with ⟨⟨_, hr⟩, -⟩ | ⟨hlt', -⟩
    · simp at hr
    · simp only [turnsLeft, hbuffer]
      omega
  · simp only [turnsLeft, hbuffer]
    omega

theorem remaining_between (hbuffer : s.currentBuffer = none) (hfront : s.processedBytes = 0)
    {ms : List CurrentMessage} :
    Remaining bag codecs s ms ↔ ∃ mss, bag.ChunksHold codecs (s.chunksToParse.drop s.chunkIter) mss ∧
      ms = s.wanted mss.flatten := by
  constructor
  · intro h
    cases h with
    | between noBuffer front chunks => exact ⟨_, chunks, rfl⟩
    | within hasBuffer => simp [hbuffer] at hasBuffer
  · rintro ⟨mss, hchunks, rfl⟩
    exact .between hbuffer hfront hchunks

theorem remaining_within {buffer : Bytes} (hbuffer : s.currentBuffer = some buffer)
    (hinside : s.chunkIter < s.chunksToParse.length) {ms : List CurrentMessage} :
    Remaining bag codecs s ms ↔ ∃ here mss,
      ChunkMessages buffer s.uncompressedSize s.processedBytes here ∧
      bag.ChunksHold codecs (s.chunksToParse.drop (s.chunkIter + 1)) mss ∧
      ms = s.wanted (here ++ mss.flatten) := by
  constructor
  · intro h
    cases h with
    | between noBuffer => simp [hbuffer] at noBuffer
    | within hasBuffer inside records chunks =>
      rw [hbuffer] at hasBuffer
      cases hasBuffer
      exact ⟨_, _, records, chunks, rfl⟩
  · rintro ⟨here, mss, hrecords, hchunks, rfl⟩
    exact .within hbuffer hinside hrecords hchunks

/-- What a result says about the messages to come: there are none, or the first has been
found, or they cannot be read. -/
def Gives (bag : Bag) (codecs : Codecs) (s s' : Scan) : Except Fault (Option CurrentMessage) → Prop
  | .ok none => ∀ ms, Remaining bag codecs s ms ↔ ms = []
  | .ok (some m) => ∀ ms, Remaining bag codecs s ms ↔ ∃ rest, ms = m :: rest ∧ Remaining bag codecs s' rest
  | .error _ => ∀ ms, ¬ Remaining bag codecs s ms

theorem Sound.turn (hs : s.Sound) {r : Option (Except Fault (Option CurrentMessage))}
    (h : turn bag codecs s = (s', r)) : s'.Sound := by
  rcases turn_cases h with ⟨-, rfl, -⟩ | ⟨p, hp, hcase⟩
  · exact hs
  obtain ⟨hi, -⟩ := List.getElem?_eq_some_iff.1 hp
  rcases hcase with ⟨-, ⟨-, rfl | ⟨buffer, rfl⟩, -⟩ | ⟨chunk, buffer, -, -, -, -, rfl⟩⟩ |
    ⟨buffer, hbuffer, ⟨hlt, hread⟩ | ⟨-, -, rfl⟩⟩
  · exact hs
  · exact ⟨by simp, fun _ => hi⟩
  · exact ⟨by simp, fun _ => hi⟩
  · obtain ⟨p', rfl, -⟩ := readRecord_cases hlt hread
    exact ⟨by simp [hbuffer], fun _ => hi⟩
  · exact ⟨fun _ => rfl, by simp⟩

theorem gives_of_turn (hs : s.Sound) {r : Except Fault (Option CurrentMessage)}
    (h : turn bag codecs s = (s', some r)) : Gives bag codecs s s' r := by
  rcases turn_cases h with ⟨hend, -, hr⟩ | ⟨p, hp, hcase⟩
  · cases hr
    have hnone : s.currentBuffer = none := by
      by_contra hne
      have hlt := hs.inside hne
      simp at hend
      omega
    intro ms
    rw [remaining_between hnone (hs.front hnone)]
    rw [List.getElem?_eq_none_iff] at hend
    rw [List.drop_eq_nil_of_le hend, Bag.ChunksHold]
    simp [wanted]
  obtain ⟨hi, -⟩ := List.getElem?_eq_some_iff.1 hp
  rcases hcase with ⟨hbuffer, ⟨⟨e, hr⟩, -, hnot⟩ | ⟨_, _, -, -, -, hr, -⟩⟩ |
    ⟨buffer, hbuffer, ⟨hlt, hread⟩ | ⟨-, hr, -⟩⟩
  · cases hr
    intro ms
    rw [remaining_between hbuffer (hs.front hbuffer), drop_of_getElem? hp]
    rintro ⟨mss, hchunks, -⟩
    cases hchunks with
    | cons hhere _ => exact hnot _ hhere
  · cases hr
  · obtain ⟨p', rfl, hcase⟩ := readRecord_cases hlt hread
    rcases hcase with ⟨⟨e, hr⟩, hnot⟩ | ⟨-, found, hfound, ⟨hr, -⟩ | ⟨m, hr, hwanted⟩⟩
    · cases hr
      intro ms
      rw [remaining_within hbuffer hi]
      rintro ⟨here, mss, hrecords, -⟩
      exact hnot _ hrecords
    · cases hr
    · cases hr
      have hsplit : ∀ rest, s.wanted (found ++ rest) = m :: s.wanted rest := by
        intro rest
        rw [wanted_append, hwanted]
        rfl
      intro ms
      rw [remaining_within hbuffer hi]
      simp only [hfound]
      constructor
      · rintro ⟨here, mss, ⟨rest, rfl, hrest⟩, hchunks, rfl⟩
        refine ⟨s.wanted (rest ++ mss.flatten), ?_, .within hbuffer hi hrest hchunks⟩
        rw [List.append_assoc, hsplit]
      · rintro ⟨rest, rfl, hrest⟩
        obtain ⟨here, mss, hrecords, hchunks, rfl⟩ :=
          (remaining_within (s := { s with processedBytes := p' }) hbuffer hi).1 hrest
        refine ⟨found ++ here, mss, ⟨here, rfl, hrecords⟩, hchunks, ?_⟩
        rw [List.append_assoc, hsplit]
        rfl
  · cases hr

theorem remaining_turn (hs : s.Sound) (h : turn bag codecs s = (s', none)) (ms : List CurrentMessage) :
    Remaining bag codecs s ms ↔ Remaining bag codecs s' ms := by
  rcases turn_cases h with ⟨-, -, hr⟩ | ⟨p, hp, hcase⟩
  · cases hr
  obtain ⟨hi, -⟩ := List.getElem?_eq_some_iff.1 hp
  rcases hcase with ⟨hbuffer, ⟨⟨e, hr⟩, -⟩ | ⟨chunk, buffer, hchunk, hsize, hdecompress, -, rfl⟩⟩ |
    ⟨buffer, hbuffer, ⟨hlt, hread⟩ | ⟨hle, -, rfl⟩⟩
  · cases hr
  · rw [remaining_between hbuffer (hs.front hbuffer), remaining_within (s := { s with
      currentBuffer := some buffer, uncompressedSize := chunk.uncompressedSize }) rfl hi,
      drop_of_getElem? hp]
    constructor
    · rintro ⟨mss, hchunks, rfl⟩
      cases hchunks with
      | @cons _ here _ mss hhere hrest =>
        obtain ⟨chunk', buffer', hsome, -, hok, hrecords⟩ := hhere
        rw [hchunk] at hsome
        cases hsome
        rw [hdecompress] at hok
        cases hok
        exact ⟨here, mss, by simpa [hs.front hbuffer] using hrecords, hrest, rfl⟩
    · rintro ⟨here, mss, hrecords, hrest, rfl⟩
      refine ⟨here :: mss, .cons ⟨chunk, buffer, hchunk, hsize, hdecompress, ?_⟩ hrest, rfl⟩
      simpa [hs.front hbuffer] using hrecords
  · obtain ⟨p', rfl, hcase⟩ := readRecord_cases hlt hread
    rcases hcase with ⟨⟨e, hr⟩, -⟩ | ⟨-, found, hfound, ⟨-, hwanted⟩ | ⟨m, hr, -⟩⟩
    · cases hr
    · have hsplit : ∀ rest, s.wanted (found ++ rest) = s.wanted rest := by
        intro rest
        rw [wanted_append, hwanted]
        rfl
      rw [remaining_within hbuffer hi,
        remaining_within (s := { s with processedBytes := p' }) hbuffer hi]
      simp only [hfound]
      constructor
      · rintro ⟨here, mss, ⟨rest, rfl, hrest⟩, hchunks, rfl⟩
        refine ⟨rest, mss, hrest, hchunks, ?_⟩
        rw [List.append_assoc, hsplit]
        rfl
      · rintro ⟨here, mss, hrecords, hchunks, rfl⟩
        refine ⟨found ++ here, mss, ⟨here, rfl, hrecords⟩, hchunks, ?_⟩
        rw [List.append_assoc, hsplit]
        rfl
    · cases hr
  · rw [remaining_within hbuffer hi, remaining_between (s := { s with
      chunkIter := s.chunkIter + 1, currentBuffer := none, processedBytes := 0 }) rfl rfl]
    simp only [chunkMessages_nil_iff hle]
    constructor
    · rintro ⟨here, mss, rfl, hchunks, rfl⟩
      exact ⟨mss, hchunks, rfl⟩
    · rintro ⟨mss, hchunks, rfl⟩
      exact ⟨[], mss, rfl, hchunks, rfl⟩

structure Continues (s s' : Scan) : Prop where
  bag : s'.bag = s.bag
  chunksToParse : s'.chunksToParse = s.chunksToParse
  connectionIds : s'.connectionIds = s.connectionIds

theorem Continues.trans {s'' : Scan} (h : Continues s s') (h' : Continues s' s'') :
    Continues s s'' :=
  ⟨h'.bag.trans h.bag, h'.chunksToParse.trans h.chunksToParse,
    h'.connectionIds.trans h.connectionIds⟩

theorem continues_of_turn {r : Option (Except Fault (Option CurrentMessage))}
    (h : turn bag codecs s = (s', r)) : Continues s s' := by
  rcases turn_cases h with ⟨-, rfl, -⟩ | ⟨p, -, hcase⟩
  · exact ⟨rfl, rfl, rfl⟩
  rcases hcase with ⟨-, ⟨-, rfl | ⟨buffer, rfl⟩, -⟩ | ⟨chunk, buffer, -, -, -, -, rfl⟩⟩ |
    ⟨buffer, -, ⟨hlt, hread⟩ | ⟨-, -, rfl⟩⟩
  · exact ⟨rfl, rfl, rfl⟩
  · exact ⟨rfl, rfl, rfl⟩
  · exact ⟨rfl, rfl, rfl⟩
  · obtain ⟨p', rfl, -⟩ := readRecord_cases hlt hread
    exact ⟨rfl, rfl, rfl⟩
  · exact ⟨rfl, rfl, rfl⟩

theorem readMessage_eq {r : Except Fault (Option CurrentMessage)}
    (h : s.readMessage bag codecs = (s', r)) :
    iterate (turn bag codecs) (s.turnsLeft bag + 1) s = (s', some r) := by
  have hdecreases : ∀ {t t' : Scan}, True → turn bag codecs t = (t', none) →
      True ∧ t'.turnsLeft bag < t.turnsLeft bag := fun _ h => ⟨trivial, turn_lt h⟩
  have hsome := iterate_isSome hdecreases trivial (Nat.lt_succ_self (s.turnsLeft bag))
  rw [readMessage] at h
  rcases hrun : iterate (turn bag codecs) (s.turnsLeft bag + 1) s with ⟨t, _ | r'⟩
  · simp [hrun] at hsome
  · rw [hrun] at h
    cases h
    rfl

/-- The states the loops of a call come to. -/
inductive Comes (bag : Bag) (codecs : Codecs) : Scan → Scan → Prop
  | refl (s : Scan) : Comes bag codecs s s
  | turn {s s' s'' : Scan} (h : turn bag codecs s = (s', none)) (rest : Comes bag codecs s' s'') :
    Comes bag codecs s s''

theorem readMessage_of_comes (h : Comes bag codecs s s') {s'' : Scan}
    {r : Except Fault (Option CurrentMessage)} (hturn : turn bag codecs s' = (s'', some r)) :
    s.readMessage bag codecs = (s'', r) := by
  have hrun : ∃ n, iterate (turn bag codecs) n s = (s'', some r) := by
    induction h with
    | refl s => exact ⟨1, by rw [iterate, hturn]⟩
    | turn hfirst _ ih =>
      obtain ⟨n, hn⟩ := ih hturn
      exact ⟨n + 1, by rw [iterate, hfirst]; exact hn⟩
  obtain ⟨n, hn⟩ := hrun
  rcases hread : s.readMessage bag codecs with ⟨t, r'⟩
  have heq := iterate_unique (readMessage_eq hread) hn
  rw [heq.1, heq.2]

theorem Comes.trans {s'' : Scan} (h : Comes bag codecs s s') (h' : Comes bag codecs s' s'') :
    Comes bag codecs s s'' := by
  induction h with
  | refl => exact h'
  | turn hturn _ ih => exact .turn hturn (ih h')

theorem continues_of_readMessage {r : Except Fault (Option CurrentMessage)}
    (h : s.readMessage bag codecs = (s', r)) : Continues s s' :=
  iterate_rule (I := fun _ => True) (Q := fun s s' _ => Continues s s')
    (fun _ hturn => continues_of_turn hturn)
    (fun _ hturn => ⟨trivial, fun _ _ ht => (continues_of_turn hturn).trans ht⟩) trivial
    (readMessage_eq h)

theorem Sound.readMessage (hs : s.Sound) {r : Except Fault (Option CurrentMessage)}
    (h : s.readMessage bag codecs = (s', r)) : s'.Sound ∧ Continues s s' :=
  ⟨iterate_rule (I := Sound) (Q := fun _ s' _ => s'.Sound) (fun hs hturn => hs.turn hturn)
    (fun hs hturn => ⟨hs.turn hturn, fun _ _ ht => ht⟩) hs (readMessage_eq h),
    continues_of_readMessage h⟩

theorem gives_of_readMessage (hs : s.Sound) {r : Except Fault (Option CurrentMessage)}
    (h : s.readMessage bag codecs = (s', r)) : Gives bag codecs s s' r := by
  refine iterate_rule (I := Sound) (Q := Gives bag codecs) (fun hs hturn => gives_of_turn hs hturn)
    (fun hs hturn => ⟨hs.turn hturn, fun t r ht => ?_⟩) hs (readMessage_eq h)
  have hback := remaining_turn hs hturn
  rcases r with e | _ | m <;> simpa only [Gives, hback] using ht

end Scan

end Embag
