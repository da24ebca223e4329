import Embag.SharedContext
import Embag.ViewContents

/-! Exceptions of `begin` and `++`: where the next `begin` goes on from. It starts from the
first chunk but with the buffer that was left, so that only a view whose chunks can all be
read, or that stops at the same record every time, loses no message. -/

namespace Embag

open Loops

theorem Bag.ChunksHold.getElem? {bag : Bag} {codecs : Codecs} {ps : List ℕ}
    {mss : List (List CurrentMessage)} (h : bag.ChunksHold codecs ps mss) {i p : ℕ}
    (hp : ps[i]? = some p) : ∃ ms, mss[i]? = some ms ∧ bag.ChunkHolds codecs p ms := by
  induction h generalizing i with
  | nil => simp at hp
  | @cons p' ms' ps mss hhere _ ih =>
    cases i with
    | zero =>
      cases hp
      exact ⟨ms', rfl, hhere⟩
    | succ i => exact ih hp

namespace Scan

variable {bag : Bag} {codecs : Codecs} {s s' : Scan}

/-- All chunks can be read, and what is left of the buffer. -/
structure Readable (bag : Bag) (codecs : Codecs) (s : Scan) : Prop where
  sound : s.Sound
  chunks : ∃ mss, bag.ChunksHold codecs s.chunksToParse mss
  buffer : ∀ buffer, s.currentBuffer = some buffer →
    ∃ ms, ChunkMessages buffer s.uncompressedSize s.processedBytes ms

theorem Readable.reset (h : s.Readable bag codecs) :
    ({ s with chunkIter := 0 } : Scan).Readable bag codecs :=
  ⟨⟨h.sound.front, fun hne => Nat.zero_lt_of_lt (h.sound.inside hne)⟩, h.chunks, h.buffer⟩

theorem Readable.turn (h : s.Readable bag codecs) {r : Option (Except Fault (Option CurrentMessage))}
    (hturn : turn bag codecs s = (s', r)) : s'.Readable bag codecs ∧ ∀ e, r ≠ some (.error e) := by
  have hsound := h.sound.turn hturn
  rcases turn_cases hturn with ⟨-, rfl, rfl⟩ | ⟨p, hp, ⟨hnone, hopen⟩ | ⟨buffer, hbuffer, hread | hleave⟩⟩
  · exact ⟨h, nofun⟩
  · obtain ⟨mss, hchunks⟩ := h.chunks
    obtain ⟨ms, -, hhere⟩ := hchunks.getElem? hp
    rcases hopen with ⟨-, -, hnot⟩ | ⟨chunk, buffer, hchunk, -, hdecompress, rfl, rfl⟩
    · exact absurd hhere (hnot _)
    · refine ⟨⟨hsound, ⟨mss, hchunks⟩, fun buffer' hbuffer' => ?_⟩, nofun⟩
      obtain ⟨chunk', buffer'', hchunk', -, hdecompress', hms⟩ := hhere
      rw [hchunk] at hchunk'
      cases hchunk'
      rw [hdecompress] at hdecompress'
      cases hdecompress'
      cases hbuffer'
      exact ⟨ms, by simpa only [h.sound.front hnone] using hms⟩
  · obtain ⟨ms, hms⟩ := h.buffer buffer hbuffer
    obtain ⟨p', rfl, ⟨-, hnot⟩ | ⟨-, found, hfound, hr⟩⟩ := readRecord_cases hread.1 hread.2
    · exact absurd hms (hnot ms)
    · obtain ⟨rest, -, hrest⟩ := (hfound ms).1 hms
      refine ⟨⟨hsound, h.chunks, fun buffer' hbuffer' => ?_⟩, ?_⟩
      · rw [hbuffer] at hbuffer'
        cases hbuffer'
        exact ⟨rest, hrest⟩
      · rcases hr with ⟨rfl, -⟩ | ⟨m, rfl, -⟩ <;> exact nofun
  · obtain ⟨-, rfl, rfl⟩ := hleave
    exact ⟨⟨hsound, h.chunks, nofun⟩, nofun⟩

theorem Readable.readMessage (h : s.Readable bag codecs) {r : Except Fault (Option CurrentMessage)}
    (hread : s.readMessage bag codecs = (s', r)) :
    s'.Readable bag codecs ∧ ∀ e, r ≠ .error e := by
  refine iterate_rule (I := Readable bag codecs)
    (Q := fun _ s' r => s'.Readable bag codecs ∧ ∀ e, r ≠ .error e) ?_ ?_ h (readMessage_eq hread)
  · rintro s s' r h hturn
    obtain ⟨hreadable, hne⟩ := h.turn hturn
    exact ⟨hreadable, fun e he => hne e (by rw [he])⟩
  · exact fun h hturn => ⟨(h.turn hturn).1, fun _ _ h => h⟩

def upTo (k : ℕ) (s : Scan) : Scan := { s with chunksToParse := s.chunksToParse.take k }

theorem readRecord_upTo (k : ℕ) (buffer : Bytes) (s : Scan) :
    (s.upTo k).readRecord buffer = ((s.readRecord buffer).1.upTo k, (s.readRecord buffer).2) := by
  unfold readRecord upTo
  dsimp only
  rcases scanRecord buffer s.processedBytes with ⟨p, e | record⟩
  · rfl
  dsimp only
  rcases readMessageHeader buffer record with e | header
  · rfl
  dsimp only
  split_ifs <;> rfl

theorem turn_upTo {k : ℕ} (h : s.chunkIter < k) :
    turn bag codecs (s.upTo k) = ((turn bag codecs s).1.upTo k, (turn bag codecs s).2) := by
  have hchunk : (s.upTo k).chunksToParse[(s.upTo k).chunkIter]? = s.chunksToParse[s.chunkIter]? := by
    unfold upTo
    rw [List.getElem?_take, if_pos h]
  unfold turn
  rw [hchunk]
  rcases s.chunksToParse[s.chunkIter]? with _ | p
  · rfl
  have hbuffer : (s.upTo k).currentBuffer = s.currentBuffer := rfl
  simp only [hbuffer]
  rcases hcurrent : s.currentBuffer with _ | buffer
  · dsimp only
    rcases bag.chunks[p]? with _ | chunk
    · rfl
    dsimp only
    rcases atIndex (List.replicate chunk.uncompressedSize 0) 0 with e | ⟨⟨⟩⟩
    · rfl
    dsimp only
    rcases chunk.decompress codecs bag.bagBytes with ⟨buffer, e | ⟨⟨⟩⟩⟩
    · rfl
    · rfl
  · dsimp only
    have hbytes : (s.upTo k).processedBytes = s.processedBytes := rfl
    have hsize : (s.upTo k).uncompressedSize = s.uncompressedSize := rfl
    rw [hbytes, hsize]
    split_ifs
    · exact readRecord_upTo k buffer s
    · rfl

theorem readMessage_of_upTo {k : ℕ} {t : Scan} {m : CurrentMessage}
    (h : (s.upTo k).readMessage bag codecs = (t, .ok (some m))) :
    ∃ s', s.readMessage bag codecs = (s', .ok (some m)) ∧ s'.upTo k = t := by
  have hrun : ∀ n (s : Scan), iterate (turn bag codecs) n (s.upTo k) = (t, some (.ok (some m))) →
      ∃ s', iterate (turn bag codecs) n s = (s', some (.ok (some m))) ∧ s'.upTo k = t := by
    intro n
    induction n with
    | zero => exact fun s h => by simp [iterate] at h
    | succ n ih =>
      intro s h
      by_cases hk : s.chunkIter < k
      · rw [iterate, turn_upTo hk] at h
        rw [iterate]
        rcases hturn : turn bag codecs s with ⟨s₁, _ | r⟩
        · rw [hturn] at h
          exact ih s₁ h
        · rw [hturn] at h
          cases h
          exact ⟨s₁, rfl, rfl⟩
      · -- there is no chunk left to find it in
        have hnone : (s.upTo k).chunksToParse[(s.upTo k).chunkIter]? = none := by
          unfold upTo
          rw [List.getElem?_take, if_neg hk]
        have hturn : turn bag codecs (s.upTo k) = (s.upTo k, some (.ok none)) := by
          rw [turn, hnone]
        rw [iterate, hturn] at h
        cases h
  obtain ⟨s', hs', heq⟩ := hrun _ s (readMessage_eq h)
  rcases hread : s.readMessage bag codecs with ⟨t', r⟩
  obtain ⟨rfl, rfl⟩ := iterate_unique (readMessage_eq hread) hs'
  exact ⟨t', rfl, heq⟩

theorem wanted_of_mem_flatten {mss : List (List CurrentMessage)} {ms : List CurrentMessage}
    (h : s.wanted mss.flatten = []) (hms : ms ∈ mss) : s.wanted ms = [] := by
  rw [wanted, List.filter_eq_nil_iff] at h ⊢
  exact fun m hm => h m (List.mem_flatten.2 ⟨ms, hms, hm⟩)

theorem Readable.remaining_ne_nil (h : s.Readable bag codecs) (hfront : s.chunkIter = 0) {i c : ℕ}
    {ms : List CurrentMessage} (hc : s.chunksToParse[i + 1]? = some c) (hms : bag.ChunkHolds codecs c ms)
    (hwanted : s.wanted ms ≠ []) : ∃ rest, Remaining bag codecs s rest ∧ rest ≠ [] := by
  obtain ⟨mss, hchunks⟩ := h.chunks
  obtain ⟨ms', hmem, hms'⟩ := hchunks.getElem? hc
  rw [hms'.unique hms] at hmem
  rcases hbuffer : s.currentBuffer with _ | buffer
  · refine ⟨_, .between hbuffer (h.sound.front hbuffer) (List.forall₂_drop _ hchunks), fun hnil => ?_⟩
    rw [hfront, List.drop_zero] at hnil
    exact hwanted (wanted_of_mem_flatten hnil (List.mem_of_getElem? hmem))
  · obtain ⟨here, hhere⟩ := h.buffer buffer hbuffer
    refine ⟨_, .within hbuffer (h.sound.inside (by simp [hbuffer])) hhere
      (List.forall₂_drop _ hchunks), fun hnil => ?_⟩
    rw [wanted_append, List.append_eq_nil_iff, hfront] at hnil
    refine hwanted (wanted_of_mem_flatten hnil.2 (List.mem_of_getElem? (i := i) ?_))
    rw [List.getElem?_drop, Nat.zero_add, Nat.add_comm]
    exact hmem

/-- However often `begin` reads on in the scan, it comes to no chunk that cannot be read: the
chunks up to one that has a message can be, and that is not the first, which is left out. -/
def Settles (bag : Bag) (codecs : Codecs) (s : Scan) : Prop :=
  ∃ k, (s.upTo k).Readable bag codecs ∧ (s.chunksToParse.length ≤ k ∨
    ∃ i c ms, k = i + 2 ∧ s.chunksToParse[i + 1]? = some c ∧ bag.ChunkHolds codecs c ms ∧
      s.wanted ms ≠ [])

theorem Settles.begin (h : s.Settles bag codecs) :
    ∃ s' r, ({ s with chunkIter := 0 } : Scan).readMessage bag codecs = (s', .ok r) ∧
      s'.Settles bag codecs := by
  obtain ⟨k, hreadable, hlong | ⟨i, c, ms, rfl, hc, hms, hwanted⟩⟩ := h
  · have hall : ∀ s : Scan, s.chunksToParse.length ≤ k → s.upTo k = s := by
      intro s hlong
      unfold upTo
      rw [List.take_of_length_le hlong]
    rw [hall s hlong] at hreadable
    rcases hread : ({ s with chunkIter := 0 } : Scan).readMessage bag codecs with ⟨s', e | r⟩
    · exact absurd rfl ((hreadable.reset.readMessage hread).2 e)
    · have hcontinues := continues_of_readMessage hread
      have hlong' : s'.chunksToParse.length ≤ k := by rw [hcontinues.chunksToParse]; exact hlong
      refine ⟨s', r, rfl, k, ?_, .inl hlong'⟩
      rw [hall s' hlong']
      exact (hreadable.reset.readMessage hread).1
  · have hc' : (s.upTo (i + 2)).chunksToParse[i + 1]? = some c := by
      unfold upTo
      rw [List.getElem?_take, if_pos (by omega), hc]
    have hstart : (upTo (i + 2) { s with chunkIter := 0 }).Readable bag codecs := hreadable.reset
    obtain ⟨rest, hrest, hne⟩ := hstart.remaining_ne_nil rfl hc' hms hwanted
    rcases hread : (upTo (i + 2) { s with chunkIter := 0 }).readMessage bag codecs with ⟨t, e | _ | m⟩
    · exact absurd rfl ((hstart.readMessage hread).2 e)
    · exact absurd ((gives_of_readMessage hstart.sound hread rest).1 hrest) hne
    · obtain ⟨s', hs', rfl⟩ := readMessage_of_upTo hread
      have hcontinues := continues_of_readMessage hs'
      refine ⟨s', some m, hs', i + 2, (hstart.readMessage hread).1, .inr ⟨i, c, ms, rfl, ?_, hms, ?_⟩⟩
      · rw [hcontinues.chunksToParse]
        exact hc
      · rw [wanted, hcontinues.connectionIds]
        exact hwanted

end Scan

inductive RecordsTo (buffer : Bytes) (size : ℕ) : ℕ → ℕ → List CurrentMessage → Prop
  | refl {p : ℕ} : RecordsTo buffer size p p []
  | cons {p p' q : ℕ} {record : Record} {header : MessageHeader} {ms : List CurrentMessage}
    (hp : p < size) (hscan : scanRecord buffer p = (p', .ok record))
    (hheader : readMessageHeader buffer record = .ok header) (hop : header.op = 2 ∨ header.op = 7)
    (rest : RecordsTo buffer size p' q ms) :
    RecordsTo buffer size p q (record.messages buffer header ++ ms)

/-- Reading the record at a position ends in an exception, with the cursor at another. -/
inductive BadRecord (buffer : Bytes) (p : ℕ) : ℕ → Fault → Prop
  | bounds {q : ℕ} {e : Fault} (hscan : scanRecord buffer p = (q, .error e)) : BadRecord buffer p q e
  | header {q : ℕ} {record : Record} {e : Fault} (hscan : scanRecord buffer p = (q, .ok record))
    (hheader : readMessageHeader buffer record = .error e) : BadRecord buffer p q e
  | unknown {q : ℕ} {record : Record} {header : MessageHeader}
    (hscan : scanRecord buffer p = (q, .ok record))
    (hheader : readMessageHeader buffer record = .ok header) (hop : header.op ≠ 2)
    (hop' : header.op ≠ 7) :
    BadRecord buffer p q (.runtimeError
      (bytes "Found unknown record type: " ++ bytes (toString header.op)))

theorem BadRecord.readRecord {s : Scan} {buffer : Bytes} {p q : ℕ} {e : Fault}
    (h : BadRecord buffer p q e) (hp : s.processedBytes = p) :
    s.readRecord buffer = ({ s with processedBytes := q }, some (.error e)) := by
  subst hp
  unfold Scan.readRecord
  cases h with
  | bounds hscan => simp only [hscan]
  | header hscan hheader => simp only [hscan, hheader]
  | unknown hscan hheader hop hop' => simp only [hscan, hheader, if_neg hop, if_neg hop']

namespace Scan

variable {bag : Bag} {codecs : Codecs} {s s' : Scan}

/-- Opening a chunk in front of which the scan stands, or reading in it, ends in an exception
before a message is found that is asked for. -/
inductive Stops (bag : Bag) (codecs : Codecs) (s : Scan) (c : ℕ) : Scan → Fault → Prop
  | empty {chunk : Chunk} (hchunk : bag.chunks[c]? = some chunk) (hsize : chunk.uncompressedSize = 0) :
    Stops bag codecs s c { s with currentBuffer := some [] } (.outOfRange (bytes "vector::at"))
  | decompress {chunk : Chunk} {buffer : Bytes} {e : Fault} (hchunk : bag.chunks[c]? = some chunk)
    (hsize : 0 < chunk.uncompressedSize)
    (hdecompress : chunk.decompress codecs bag.bagBytes = (buffer, .error e)) :
    Stops bag codecs s c { s with currentBuffer := some buffer } e
  | record {chunk : Chunk} {buffer : Bytes} {p q : ℕ} {ms : List CurrentMessage} {e : Fault}
    (hchunk : bag.chunks[c]? = some chunk) (hsize : 0 < chunk.uncompressedSize)
    (hdecompress : chunk.decompress codecs bag.bagBytes = (buffer, .ok ()))
    (hrecords : RecordsTo buffer chunk.uncompressedSize 0 p ms) (hquiet : s.wanted ms = [])
    (hp : p < chunk.uncompressedSize) (hbad : BadRecord buffer p q e) :
    Stops bag codecs s c
      { s with currentBuffer := some buffer, uncompressedSize := chunk.uncompressedSize, processedBytes := q } e

theorem turn_quiet {buffer : Bytes} {p' : ℕ} {record : Record} {header : MessageHeader}
    (hi : s.chunkIter < s.chunksToParse.length) (hbuffer : s.currentBuffer = some buffer)
    (hp : s.processedBytes < s.uncompressedSize)
    (hscan : scanRecord buffer s.processedBytes = (p', .ok record))
    (hheader : readMessageHeader buffer record = .ok header) (hop : header.op = 2 ∨ header.op = 7)
    (hquiet : s.wanted (record.messages buffer header) = []) :
    turn bag codecs s = ({ s with processedBytes := p' }, none) := by
  have hread : s.readRecord buffer = ({ s with processedBytes := p' }, none) := by
    unfold readRecord
    simp only [hscan, hheader]
    rcases hop with hop | hop
    · rw [Record.messages, if_pos hop, wanted, List.filter_singleton] at hquiet
      have hid : header.connectionId ∉ s.connectionIds := by
        intro hid
        simp [Record.message, hid] at hquiet
      rw [if_pos hop, if_neg hid]
    · rw [if_neg (by omega), if_pos hop]
  unfold turn
  simp only [List.getElem?_eq_getElem hi, hbuffer, if_pos hp, hread]

theorem comes_recordsTo {buffer : Bytes} {size p q : ℕ} {ms : List CurrentMessage}
    (h : RecordsTo buffer size p q ms) (hi : s.chunkIter < s.chunksToParse.length)
    (hbuffer : s.currentBuffer = some buffer) (hsize : s.uncompressedSize = size)
    (hp : s.processedBytes = p) (hquiet : s.wanted ms = []) :
    Comes bag codecs s { s with processedBytes := q } := by
  induction h generalizing s with
  | refl =>
    subst hp
    exact .refl s
  | @cons p p' q record header ms hlt hscan hheader hop _ ih =>
    subst hp hsize
    rw [wanted_append, List.append_eq_nil_iff] at hquiet
    exact .turn (turn_quiet hi hbuffer hlt hscan hheader hop hquiet.1)
      (@ih { s with processedBytes := p' } hi hbuffer rfl rfl hquiet.2)

theorem recordsTo_of_chunkMessages {buffer : Bytes} {size p : ℕ} {ms : List CurrentMessage}
    (h : ChunkMessages buffer size p ms) : ∃ q, size ≤ q ∧ RecordsTo buffer size p q ms := by
  induction h with
  | nil hle => exact ⟨_, hle, .refl⟩
  | cons hp hscan hheader hop _ ih =>
    obtain ⟨q, hq, hrest⟩ := ih
    exact ⟨q, hq, .cons hp hscan hheader hop hrest⟩

theorem comes_leave {buffer : Bytes} {ms : List CurrentMessage}
    (h : ChunkMessages buffer s.uncompressedSize s.processedBytes ms)
    (hi : s.chunkIter < s.chunksToParse.length) (hbuffer : s.currentBuffer = some buffer)
    (hquiet : s.wanted ms = []) :
    Comes bag codecs s
      { s with chunkIter := s.chunkIter + 1, currentBuffer := none, processedBytes := 0 } := by
  obtain ⟨q, hq, hrecords⟩ := recordsTo_of_chunkMessages h
  refine (comes_recordsTo hrecords hi hbuffer rfl rfl hquiet).trans (.turn ?_ (.refl _))
  unfold turn
  simp only [List.getElem?_eq_getElem hi, hbuffer, if_neg (Nat.not_lt.2 hq)]

def QuietChunk (bag : Bag) (codecs : Codecs) (s : Scan) (j : ℕ) : Prop :=
  ∃ c ms, s.chunksToParse[j]? = some c ∧ bag.ChunkHolds codecs c ms ∧ s.wanted ms = []

def sizeAt (bag : Bag) (s : Scan) (j : ℕ) : ℕ :=
  ((s.chunksToParse[j]?).bind fun c => bag.chunks[c]?).elim 0 Chunk.uncompressedSize

theorem comes_quietChunk (h : s.QuietChunk bag codecs s.chunkIter) (hbuffer : s.currentBuffer = none)
    (hp : s.processedBytes = 0) :
    Comes bag codecs s
      { s with chunkIter := s.chunkIter + 1, uncompressedSize := s.sizeAt bag s.chunkIter } := by
  obtain ⟨c, ms, hc, ⟨chunk, buffer, hchunk, hsize, hdecompress, hms⟩, hquiet⟩ := h
  obtain ⟨hi, -⟩ := List.getElem?_eq_some_iff.1 hc
  have hopen : turn bag codecs s =
      ({ s with currentBuffer := some buffer, uncompressedSize := chunk.uncompressedSize }, none) := by
    unfold turn
    simp only [hc, hbuffer, hchunk, atIndex, List.length_replicate, if_pos hsize, hdecompress]
  have hsizeAt : s.sizeAt bag s.chunkIter = chunk.uncompressedSize := by
    rw [sizeAt, hc, Option.bind_some, hchunk, Option.elim_some]
  have hleave := @comes_leave bag codecs
    { s with currentBuffer := some buffer, uncompressedSize := chunk.uncompressedSize } buffer ms
    (by rw [hp]; exact hms) hi rfl hquiet
  rw [hsizeAt]
  refine .turn hopen ?_
  rw [hp] at hleave ⊢
  rw [hbuffer]
  exact hleave

theorem comes_quietChunks {i j : ℕ} (h : ∀ k ≤ i, s.QuietChunk bag codecs k) (hj : j ≤ i)
    (hiter : s.chunkIter = j) (hbuffer : s.currentBuffer = none) (hp : s.processedBytes = 0) :
    Comes bag codecs s { s with chunkIter := i + 1, uncompressedSize := s.sizeAt bag i } := by
  induction hn : i - j generalizing j s with
  | zero =>
    obtain rfl : i = j := by omega
    have hcomes := comes_quietChunk (hiter ▸ h i le_rfl) hbuffer hp
    rwa [hiter] at hcomes
  | succ n ih =>
    have hcomes := comes_quietChunk (hiter ▸ h j hj) hbuffer hp
    rw [hiter] at hcomes
    exact hcomes.trans (@ih { s with chunkIter := j + 1, uncompressedSize := s.sizeAt bag j } (j + 1) h
      (by omega) rfl hbuffer hp (by omega))

theorem Stops.turn {c : ℕ} {e : Fault} (h : s.Stops bag codecs c s' e)
    (hc : s.chunksToParse[s.chunkIter]? = some c) (hbuffer : s.currentBuffer = none)
    (hp : s.processedBytes = 0) :
    ∃ s₁, Comes bag codecs s s₁ ∧ turn bag codecs s₁ = (s', some (.error e)) := by
  cases h with
  | empty hchunk hsize =>
    refine ⟨s, .refl s, ?_⟩
    unfold Scan.turn
    simp [hc, hbuffer, hchunk, atIndex, hsize]
  | decompress hchunk hsize hdecompress =>
    refine ⟨s, .refl s, ?_⟩
    unfold Scan.turn
    simp only [hc, hbuffer, hchunk, atIndex, List.length_replicate, if_pos hsize, hdecompress]
  | @record chunk buffer p q ms e hchunk hsize hdecompress hrecords hquiet hlt hbad =>
    obtain ⟨hi, -⟩ := List.getElem?_eq_some_iff.1 hc
    have hopen : Scan.turn bag codecs s =
        ({ s with currentBuffer := some buffer, uncompressedSize := chunk.uncompressedSize }, none) := by
      unfold Scan.turn
      simp only [hc, hbuffer, hchunk, atIndex, List.length_replicate, if_pos hsize, hdecompress]
    have hrecords' := @comes_recordsTo bag codecs
      { s with currentBuffer := some buffer, uncompressedSize := chunk.uncompressedSize } buffer _ _ _ _
      hrecords hi rfl rfl hp hquiet
    refine ⟨_, .turn hopen hrecords', ?_⟩
    unfold Scan.turn
    simp only [hc, if_pos hlt]
    exact hbad.readRecord rfl

/-- `begin` throws at the same record every time: it is in a chunk behind the first, no message
comes before it, and none in the buffer that it leaves. -/
structure Blocks (bag : Bag) (codecs : Codecs) (s s' : Scan) (e : Fault) : Prop where
  noBuffer : s.currentBuffer = none
  front : s.processedBytes = 0 ∧ s.chunkIter = 0
  stops : ∃ i c, (∀ k ≤ i, s.QuietChunk bag codecs k) ∧ s.chunksToParse[i + 1]? = some c ∧
    Stops bag codecs { s with chunkIter := i + 1, uncompressedSize := s.sizeAt bag i } c s' e
  leftover : ∀ buffer, s'.currentBuffer = some buffer →
    ∃ ms, ChunkMessages buffer s'.uncompressedSize s'.processedBytes ms ∧ s.wanted ms = []

/-- The size that an earlier exception has left is overwritten, or kept where there is none. -/
theorem Stops.of_size {c : ℕ} {e : Fault} (h : s.Stops bag codecs c s' e) :
    ({ s with uncompressedSize := s'.uncompressedSize } : Scan).Stops bag codecs c s' e := by
  cases h with
  | empty hchunk hsize => exact .empty hchunk hsize
  | decompress hchunk hsize hdecompress => exact .decompress hchunk hsize hdecompress
  | record hchunk hsize hdecompress hrecords hquiet hp hbad =>
    exact @Stops.record bag codecs { s with uncompressedSize := _ } _ _ _ _ _ _ _ hchunk hsize
      hdecompress hrecords hquiet hp hbad

theorem Stops.readMessage {c : ℕ} {e : Fault} {t : Scan} (h : s.Stops bag codecs c s' e)
    (hc : s.chunksToParse[s.chunkIter]? = some c) (hbuffer : s.currentBuffer = none)
    (hp : s.processedBytes = 0) (hcomes : Comes bag codecs t s) :
    t.readMessage bag codecs = (s', .error e) := by
  obtain ⟨s₁, hcomes', hturn⟩ := h.turn hc hbuffer hp
  exact readMessage_of_comes (hcomes.trans hcomes') hturn

theorem Stops.exists_buffer {c : ℕ} {e : Fault} (h : s.Stops bag codecs c s' e) :
    ∃ buffer, s' = { s with
      currentBuffer := some buffer
      uncompressedSize := s'.uncompressedSize
      processedBytes := s'.processedBytes } := by
  cases h <;> exact ⟨_, rfl⟩

theorem Blocks.begin {e : Fault} (h : s.Blocks bag codecs s' e) :
    ({ s with chunkIter := 0 } : Scan).readMessage bag codecs = (s', .error e) ∧
      ({ s' with chunkIter := 0 } : Scan).readMessage bag codecs = (s', .error e) := by
  obtain ⟨hbuffer, ⟨hp, -⟩, ⟨i, c, hquiet, hc, hstops⟩, hleftover⟩ := h
  constructor
  · refine hstops.readMessage hc hbuffer hp ?_
    exact @comes_quietChunks bag codecs { s with chunkIter := 0 } i 0 hquiet (Nat.zero_le i) rfl hbuffer hp
  · obtain ⟨buffer, hs'⟩ := hstops.exists_buffer
    obtain ⟨ms, hms, hnone⟩ := hleftover buffer (by rw [hs'])
    obtain ⟨hinside, -⟩ := List.getElem?_eq_some_iff.1 hc
    -- what is left of the buffer goes for the first chunk
    let t : Scan := { s with
      chunkIter := 1, uncompressedSize := s'.uncompressedSize, currentBuffer := none, processedBytes := 0 }
    have hleave : Comes bag codecs { s' with chunkIter := 0 } t := by
      rw [hs']
      exact @comes_leave bag codecs { s with
        chunkIter := 0, currentBuffer := some buffer, uncompressedSize := s'.uncompressedSize,
        processedBytes := s'.processedBytes } buffer ms hms (Nat.zero_lt_of_lt hinside) rfl hnone
    rcases i with _ | i
    · refine @Stops.readMessage bag codecs t s' c e _ ?_ hc rfl rfl hleave
      convert hstops.of_size using 1
      simp only [t, hbuffer, hp]
    · refine @Stops.readMessage bag codecs
        { t with chunkIter := i + 1 + 1, uncompressedSize := s.sizeAt bag (i + 1) } s' c e _ ?_ hc rfl rfl
        (hleave.trans (@comes_quietChunks bag codecs t (i + 1) 1 hquiet (by omega) rfl rfl rfl))
      convert hstops using 1
      simp only [t, hbuffer, hp]

end Scan

/-- No call that throws has lost a message: a pass that is begun later, whatever has been done
until then, throws at the same record or gives all messages of a fresh view, and `operator++`
has changed nothing. -/
structure Session.LosesNothing (env : Env) (order : List ℕ) (fresh : World) (s : Session) : Prop where
  later : ∀ {c place}, s.throwsAt env order c = some place → ∀ cs,
    (∃ out, (((s.call env order c).1.calls env order cs).world).Pass env order out (some place)) ∨
      ∃ out, (((s.call env order c).1.calls env order cs).world).Pass env order out none ∧
        fresh.Pass env order out none
  keeps : ∀ {i place}, s.throwsAt env order (.advance i) = some place →
    (s.call env order (.advance i)).1.iterators = s.iterators ∧
      ∀ p, (s.call env order (.advance i)).1.world.place p = s.world.place p

/-- Nothing that `begin` starts from or comes to is unreadable, or it comes to the same
unreadable record every time. -/
def World.ReadableOrBlocked (env : Env) (order : List ℕ) (world : World) : Prop :=
  (∀ p ∈ order, ∃ w bag, world.wrappers[p]? = some w ∧ world.files[w.scan.bag]? = some bag ∧
    w.scan.Readable bag env.codecs) ∨
  ∃ pre p post w bag s e, order = pre ++ p :: post ∧
    (∀ q ∈ pre, ∃ w bag, world.wrappers[q]? = some w ∧ world.files[w.scan.bag]? = some bag ∧
      w.scan.Settles bag env.codecs) ∧
    world.wrappers[p]? = some w ∧ world.files[w.scan.bag]? = some bag ∧
    w.scan.Blocks bag env.codecs s e

section Readable

variable {env : Env} {files : List Bag} {order : List ℕ} {world : World} {s : Session}

/-- The invariant of a view all of whose chunks can be read. -/
def ReadableIn (codecs : Codecs) (files : List Bag) (_ : ℕ) (s : Scan) : Prop :=
  ∀ bag, files[s.bag]? = some bag → s.Readable bag codecs

theorem stable_readableIn (codecs : Codecs) (files : List Bag) :
    Stable codecs files (ReadableIn codecs files) where
  reset h bag hbag := (h bag hbag).reset
  read hfile h hread bag hbag := by
    rw [(Scan.continues_of_readMessage hread).bag, hfile] at hbag
    cases hbag
    exact ((h _ hfile).readMessage hread).1

theorem World.Holds.readMessage_ne_error (h : world.Holds files order (ReadableIn env.codecs files))
    {p : ℕ} (hp : p ∈ order) (queue : List ℕ) (e : Fault) : (world.readMessage env p queue).2 ≠ .error e := by
  obtain ⟨w, file, hw, hfile, hscan⟩ := h.wrapper p hp
  obtain ⟨bag, hbag, rfl⟩ := exists_bag_of_files h.files_eq hfile
  obtain ⟨w', -, -, -, -, hnone, hsome⟩ := readMessage_effect env queue hw hbag
  rcases hread : w.scan.readMessage bag env.codecs with ⟨s', e' | _ | m⟩
  · have hread' : w.scan.readMessage bag.file env.codecs = (s', .error e') := hread
    exact absurd rfl (((hscan _ hfile).readMessage hread').2 e')
  · rw [(hnone (by rw [hread])).2]
    exact nofun
  · rw [(hsome m (by rw [hread])).2]
    exact nofun

theorem World.Holds.beginThrows (h : world.Holds files order (ReadableIn env.codecs files)) {ps : List ℕ}
    (hps : ∀ p ∈ ps, p ∈ order) (queue : List ℕ) : world.beginThrows env ps queue = none := by
  induction ps generalizing world queue with
  | nil => rfl
  | cons p ps ih =>
    rw [List.forall_mem_cons] at hps
    have hreset := h.resetIter (stable_readableIn env.codecs files) p
    have hread := hreset.readMessage (stable_readableIn env.codecs files) hps.1 queue
    unfold World.beginThrows
    rcases hresult : (world.resetIter p).readMessage env p queue with ⟨world₁, e | queue₁⟩
    · exact absurd (by rw [hresult]) (hreset.readMessage_ne_error hps.1 queue e)
    · rw [hresult] at hread
      exact ih hread hps.2 queue₁

theorem World.Holds.throwsAt (h : world.Holds files order (ReadableIn env.codecs files)) {it : Iterator}
    (hit : ∀ p ∈ it.msgQueue, p ∈ order) : it.throwsAt env world = none := by
  unfold Iterator.throwsAt Iterator.advance
  rcases hqueue : it.msgQueue with _ | ⟨p, queue⟩
  · rfl
  rw [hqueue, List.forall_mem_cons] at hit
  have hne := h.readMessage_ne_error hit.1 (env.heap.pop world.compare (p :: queue))
  dsimp only
  rcases hresult : world.readMessage env p (env.heap.pop world.compare (p :: queue)) with
    ⟨world₁, e | queue₁⟩
  · exact absurd (by rw [hresult]) (hne e)
  · rfl

theorem Session.Holds.throwsAt (h : s.Holds files order (ReadableIn env.codecs files)) (c : Call) :
    s.throwsAt env order c = none := by
  cases c with
  | begin => exact h.world.beginThrows (fun _ hp => hp) []
  | copy i => rfl
  | deref i => rfl
  | advance i =>
    rw [Session.throwsAt, Option.bind_eq_none_iff]
    exact fun it hit => h.world.throwsAt (h.queue it (List.mem_of_getElem? hit))

end Readable

/-! ### A record in the way -/

section Blocked

open Scan

variable {env : Env} {files : List Bag} {pre post : List ℕ} {p : ℕ} {s s' : Scan} {e : Fault} {world : World}

/-- The state of a view that comes to an unreadable record at every `begin`: the wrapper it is
in stands before its first chunk or behind the record. -/
structure Blocked (codecs : Codecs) (files : List Bag) (pre : List ℕ) (p : ℕ) (s s' : Scan) (e : Fault)
    (world : World) : Prop where
  files_eq : world.files = files
  settles : ∀ q ∈ pre, ∃ w bag, world.wrappers[q]? = some w ∧ files[w.scan.bag]? = some bag ∧
    w.scan.Settles bag codecs
  blocks : ∃ bag, files[s.bag]? = some bag ∧ s.Blocks bag codecs s' e
  wrapper : ∃ w, world.wrappers[p]? = some w ∧ (w.scan = s ∨ w.scan = s')

theorem World.readMessage_resetIter (env : Env) {w : BagWrapper} {bag : Bag} (queue : List ℕ)
    (hw : world.wrappers[p]? = some w) (hbag : world.bags[w.scan.bag]? = some bag) :
    ∃ w', ((world.resetIter p).readMessage env p queue).1.files = world.files ∧
      (∀ q, q ≠ p → ((world.resetIter p).readMessage env p queue).1.wrappers[q]? = world.wrappers[q]?) ∧
      ((world.resetIter p).readMessage env p queue).1.wrappers[p]? = some w' ∧
      w'.scan = (({ w.scan with chunkIter := 0 } : Scan).readMessage bag env.codecs).1 ∧
      ((∃ e, (({ w.scan with chunkIter := 0 } : Scan).readMessage bag env.codecs).2 = .error e ∧
          ((world.resetIter p).readMessage env p queue).2 = .error e) ∨
        ∃ r queue', (({ w.scan with chunkIter := 0 } : Scan).readMessage bag env.codecs).2 = .ok r ∧
          ((world.resetIter p).readMessage env p queue).2 = .ok queue') := by
  have hreset : (world.resetIter p).wrappers[p]? = some { w with scan.chunkIter := 0 } := by
    rw [resetIter_wrappers, if_pos rfl, hw, Option.map_some]
  obtain ⟨w', hwrappers, hbags, hscan, herror, hnone, hsome⟩ :=
    readMessage_effect env queue hreset hbag
  obtain ⟨hlt, -⟩ := List.getElem?_eq_some_iff.1 hreset
  refine ⟨w', files_eq_of_bags hbags, fun q hq => ?_, ?_, hscan, ?_⟩
  · rw [hwrappers, List.getElem?_set_ne (Ne.symm hq), resetIter_wrappers, if_neg hq]
  · rw [hwrappers, List.getElem?_set_self hlt]
  · rcases hread : (({ w.scan with chunkIter := 0 } : Scan).readMessage bag env.codecs).2 with e | _ | m
    · exact .inl ⟨e, rfl, (herror e hread).2⟩
    · exact .inr ⟨none, _, rfl, (hnone hread).2⟩
    · exact .inr ⟨some m, _, rfl, (hsome m hread).2⟩

/-- The wrappers in front of the one with the record are read without an exception. -/
theorem Blocked.settle (h : Blocked env.codecs files pre p s s' e world) {q : ℕ} (hq : q ∈ pre)
    (hne : q ≠ p) (queue : List ℕ) :
    ∃ world₁ queue₁, (world.resetIter q).readMessage env q queue = (world₁, .ok queue₁) ∧
      Blocked env.codecs files pre p s s' e world₁ := by
  obtain ⟨w, file, hw, hfile, hsettles⟩ := h.settles q hq
  obtain ⟨bag, hbag, rfl⟩ := exists_bag_of_files h.files_eq hfile
  obtain ⟨w', hfiles, hother, hself, hscan, hresult⟩ :=
    World.readMessage_resetIter env queue hw hbag
  obtain ⟨t, r, hread, hsettles'⟩ := hsettles.begin
  have hcontinues := continues_of_readMessage hread
  replace hread : ({ w.scan with chunkIter := 0 } : Scan).readMessage bag env.codecs = (t, .ok r) := hread
  rw [hread] at hscan hresult
  obtain ⟨e', he', -⟩ | ⟨_, queue', -, hok⟩ := hresult
  · cases he'
  refine ⟨_, queue', Prod.ext rfl hok, hfiles.trans h.files_eq, fun q' hq' => ?_, h.blocks, ?_⟩
  · by_cases heq : q' = q
    · subst heq
      refine ⟨w', bag.file, hself, ?_, ?_⟩
      · rw [hscan, hcontinues.bag]
        exact hfile
      · rw [hscan]
        exact hsettles'
    · rw [hother q' heq]
      exact h.settles q' hq'
  · rw [hother p hne.symm]
    exact h.wrapper

/-- The record is come to again. -/
theorem Blocked.stop (h : Blocked env.codecs files pre p s s' e world) (hp : p ∉ pre) (queue : List ℕ) :
    ∃ world₁, (world.resetIter p).readMessage env p queue = (world₁, .error e) ∧
      Blocked env.codecs files pre p s s' e world₁ ∧
      world₁.place p = some ⟨p, s'.chunkIter, s'.processedBytes, s'.currentBuffer⟩ := by
  obtain ⟨w, hw, hws⟩ := h.wrapper
  obtain ⟨file, hfile, hblocks⟩ := h.blocks
  have hread : ({ w.scan with chunkIter := 0 } : Scan).readMessage file env.codecs = (s', .error e) := by
    rcases hws with hws | hws
    · rw [hws]
      exact hblocks.begin.1
    · rw [hws]
      exact hblocks.begin.2
  have hwbag : w.scan.bag = s.bag := by
    rcases hws with hws | hws
    · rw [hws]
    · rw [hws, (continues_of_readMessage hblocks.begin.1).bag]
  obtain ⟨bag, hbag, rfl⟩ := exists_bag_of_files h.files_eq (hwbag ▸ hfile)
  obtain ⟨w', hfiles, hother, hself, hscan, hresult⟩ :=
    World.readMessage_resetIter env queue hw hbag
  replace hread : ({ w.scan with chunkIter := 0 } : Scan).readMessage bag env.codecs = (s', .error e) := hread
  rw [hread] at hscan hresult
  obtain ⟨e', he', herror⟩ | ⟨_, _, hok, -⟩ := hresult
  · cases he'
    refine ⟨_, Prod.ext rfl herror, ⟨hfiles.trans h.files_eq, fun q hq => ?_, h.blocks, w', hself,
      .inr hscan⟩, ?_⟩
    · rw [hother q (by rintro rfl; exact hp hq)]
      exact h.settles q hq
    · rw [World.place, hself, Option.map_some, hscan]
  · cases hok

theorem Blocked.beginLoop (post : List ℕ) (h : Blocked env.codecs files pre p s s' e world) (hp : p ∉ pre) {ps : List ℕ}
    (hps : ∀ q ∈ ps, q ∈ pre) (queue : List ℕ) :
    ∃ world₁, world.beginLoop env (ps ++ p :: post) queue = (world₁, .error e) ∧
      Blocked env.codecs files pre p s s' e world₁ ∧
      world.beginThrows env (ps ++ p :: post) queue =
        some ⟨p, s'.chunkIter, s'.processedBytes, s'.currentBuffer⟩ := by
  induction ps generalizing world queue with
  | nil =>
    obtain ⟨world₁, hread, hblocked, hplace⟩ := h.stop hp queue
    refine ⟨world₁, ?_, hblocked, ?_⟩
    · rw [List.nil_append, World.beginLoop, hread]
    · rw [List.nil_append, World.beginThrows, hread]
      exact hplace
  | cons q ps ih =>
    rw [List.forall_mem_cons] at hps
    obtain ⟨world₁, queue₁, hread, hblocked⟩ :=
      h.settle hps.1 (by rintro rfl; exact hp hps.1) queue
    obtain ⟨world₂, hloop, hblocked', hthrows⟩ := ih hblocked hps.2 queue₁
    refine ⟨world₂, ?_, hblocked', ?_⟩
    · rw [List.cons_append, World.beginLoop, hread]
      exact hloop
    · rw [List.cons_append, World.beginThrows, hread]
      exact hthrows

theorem Blocked.begin (post : List ℕ) (h : Blocked env.codecs files pre p s s' e world) (hp : p ∉ pre) :
    ∃ world₁, world.begin env (pre ++ p :: post) = (world₁, .error e) ∧
      Blocked env.codecs files pre p s s' e world₁ ∧
      world.beginThrows env (pre ++ p :: post) [] =
        some ⟨p, s'.chunkIter, s'.processedBytes, s'.currentBuffer⟩ := by
  obtain ⟨world₁, hloop, hblocked, hthrows⟩ := h.beginLoop post hp (fun _ hq => hq) []
  refine ⟨world₁, ?_, hblocked, hthrows⟩
  rw [World.begin, hloop]

/-- No iterator is ever made. -/
theorem Blocked.call {session : Session} (post : List ℕ) (h : Blocked env.codecs files pre p s s' e session.world)
    (hp : p ∉ pre) (hnone : session.iterators = []) (c : Call) :
    Blocked env.codecs files pre p s s' e (session.call env (pre ++ p :: post) c).1.world ∧
      (session.call env (pre ++ p :: post) c).1.iterators = [] := by
  cases c with
  | begin =>
    obtain ⟨world₁, hbegin, hblocked, -⟩ := h.begin post hp
    rw [Session.call, hbegin]
    exact ⟨hblocked, hnone⟩
  | copy i =>
    rw [Session.call, hnone]
    exact ⟨h, rfl⟩
  | deref i =>
    rw [Session.call, hnone]
    exact ⟨h, hnone⟩
  | advance i =>
    rw [Session.call, hnone]
    exact ⟨h, hnone⟩

theorem Blocked.calls {session : Session} (post : List ℕ) (h : Blocked env.codecs files pre p s s' e session.world)
    (hp : p ∉ pre) (hnone : session.iterators = []) (cs : List Call) :
    Blocked env.codecs files pre p s s' e (session.calls env (pre ++ p :: post) cs).world ∧
      (session.calls env (pre ++ p :: post) cs).iterators = [] := by
  induction cs generalizing session with
  | nil => exact ⟨h, hnone⟩
  | cons c cs ih =>
    obtain ⟨hcall, hnone'⟩ := h.call post hp hnone c
    exact ih hcall hnone'

theorem Blocked.losesNothing {session : Session} {fresh : World}
    (h : Blocked env.codecs files pre p s s' e session.world) (hp : p ∉ pre)
    (hnone : session.iterators = []) : session.LosesNothing env (pre ++ p :: post) fresh where
  later {c place} hthrows cs := by
    have hbegin : c = .begin := by
      cases c with
      | begin => rfl
      | copy i => cases hthrows
      | deref i => cases hthrows
      | advance i => simp [Session.throwsAt, hnone] at hthrows
    subst hbegin
    obtain ⟨-, -, -, hplace⟩ := h.begin post hp
    obtain ⟨hcall, hnone'⟩ := h.call post hp hnone .begin
    obtain ⟨hlater, -⟩ := hcall.calls post hp hnone' cs
    obtain ⟨-, -, -, hplace'⟩ := hlater.begin post hp
    replace hthrows : session.world.beginThrows env (pre ++ p :: post) [] = some place := hthrows
    rw [hplace] at hthrows
    cases hthrows
    exact .inl ⟨[], .fails hplace'⟩
  keeps hthrows := by simp [Session.throwsAt, hnone] at hthrows

end Blocked

theorem World.ReadableOrBlocked.losesNothing {env : Env} {order : List ℕ} {world : World}
    (h : world.ReadableOrBlocked env order) (horder : order.Nodup) (cs : List Call) :
    (({ world } : Session).calls env order cs).LosesNothing env order world := by
  rcases h with hreadable | ⟨pre, p, post, w, bag, s', e, rfl, hpre, hw, hbag, hblocks⟩
  · have hholds : ({ world } : Session).Holds world.files order (ReadableIn env.codecs world.files) := by
      refine ⟨⟨rfl, fun p hp => ?_⟩, fun it hit => by cases hit⟩
      obtain ⟨w, bag, hw, hbag, hscan⟩ := hreadable p hp
      refine ⟨w, bag, hw, hbag, fun bag' hbag' => ?_⟩
      rw [hbag] at hbag'
      cases hbag'
      exact hscan
    have hnone : ∀ c, (({ world } : Session).calls env order cs).throwsAt env order c = none :=
      (hholds.calls (stable_readableIn _ _) cs).throwsAt
    exact ⟨fun hthrows => by simp [hnone] at hthrows, fun hthrows => by simp [hnone] at hthrows⟩
  · have hblocked : Blocked env.codecs world.files pre p w.scan s' e ({ world } : Session).world :=
      ⟨rfl, hpre, ⟨bag, hbag, hblocks⟩, w, hw, .inl rfl⟩
    have hp : p ∉ pre := fun hmem => List.disjoint_of_nodup_append horder hmem List.mem_cons_self
    obtain ⟨hcalls, hnone⟩ := hblocked.calls post hp rfl cs
    exact hcalls.losesNothing hp hnone

/-- As `LosesNothing`, with one context of LZ4 for all chunks; the fresh view is that of a new process. -/
structure Session.LosesNothingShared (env : SharedEnv) (order : List ℕ) (fresh : World)
    (context : env.lz4.Context) (s : Session) : Prop where
  later : ∀ {c place}, s.throwsAtShared env order context c = some place → ∀ cs,
    let thrown := s.callShared env order context c
    let st := thrown.2.1.callsShared env order thrown.1 cs
    (∃ out, st.2.world.PassShared env order st.1 out (some place)) ∨
      ∃ out, st.2.world.PassShared env order st.1 out none ∧
        fresh.PassShared env order env.lz4.created out none
  keeps : ∀ {i place}, s.throwsAtShared env order context (.advance i) = some place →
    (s.callShared env order context (.advance i)).2.1.iterators = s.iterators ∧
      ∀ p, (s.callShared env order context (.advance i)).2.1.world.place p = s.world.place p

theorem Session.LosesNothing.shared {env : SharedEnv} {AtBoundary : env.lz4.Context → Prop}
    {IsFrame : Bytes → Bytes → Prop} (hlz4 : env.lz4.Documented AtBoundary IsFrame) {order : List ℕ}
    {fresh : World} {context : env.lz4.Context} {s : Session} (h : s.LosesNothing env.own order fresh)
    (hcontext : AtBoundary context) (hends : s.EndsWithFrames IsFrame order)
    (hfresh : fresh.EndsWithFrames IsFrame order) : s.LosesNothingShared env order fresh context where
  later {c place} hthrows cs := by
    obtain ⟨hcontext', hcall, hplace⟩ := SharedEnv.callShared_spec hlz4 hcontext hends c
    have hnext := hends.call env.own c
    rw [← hcall] at hnext
    obtain ⟨hlast, hcalls, hlastEnds⟩ := SharedEnv.callsShared_spec hlz4 hcontext' hnext cs
    rw [← hcalls] at hlastEnds
    have hlater := h.later (hplace ▸ hthrows) cs
    rw [← hcall, ← hcalls] at hlater
    refine hlater.imp ?_ ?_
    · rintro ⟨out, hpass⟩
      exact ⟨out, (SharedEnv.passShared_iff hlz4 hlast hlastEnds.world).2 hpass⟩
    · rintro ⟨out, hpass, hall⟩
      exact ⟨out, (SharedEnv.passShared_iff hlz4 hlast hlastEnds.world).2 hpass,
        (SharedEnv.passShared_iff hlz4 hlz4.created hfresh).2 hall⟩
  keeps {i place} hthrows := by
    obtain ⟨-, hcall, hplace⟩ := SharedEnv.callShared_spec hlz4 hcontext hends (.advance i)
    have hkeeps := h.keeps (hplace ▸ hthrows)
    rwa [← hcall] at hkeeps

/-- In every state that a fresh view is brought to, whatever has been called and has thrown. -/
theorem View.losesNothing_of_readableOrBlocked {env : SharedEnv} {AtBoundary : env.lz4.Context → Prop}
    {IsFrame : Bytes → Bytes → Prop} (hlz4 : env.lz4.Documented AtBoundary IsFrame) {selection : Selection}
    {view : View} {world : World} (hbags : ∀ b ∈ view.bags, b < world.bags.length) {order : List ℕ}
    (horder : order.Perm (view.getMessages selection world).2.wrappers)
    (hends : (view.getMessages selection world).1.EndsWithFrames IsFrame order)
    (h : (view.getMessages selection world).1.ReadableOrBlocked env.own order)
    {context : env.lz4.Context} (hcontext : AtBoundary context) (cs : List Call) :
    let st := Session.callsShared env order context { world := (view.getMessages selection world).1 } cs
    st.2.LosesNothingShared env order (view.getMessages selection world).1 st.1 := by
  have hstart : ({ world := (view.getMessages selection world).1 } : Session).EndsWithFrames IsFrame order :=
    ⟨hends, by simp⟩
  obtain ⟨hlast, heq, hlastEnds⟩ := SharedEnv.callsShared_spec hlz4 hcontext hstart cs
  have hloses := h.losesNothing (horder.nodup_iff.2 (wrapped_getMessages selection hbags).nodup) cs
  rw [← heq] at hloses hlastEnds
  exact hloses.shared hlz4 hlast hlastEnds hends

theorem StoredBag.exists_blocks {b : StoredBag} {bag : Bag} {codecs : Codecs} (hopens : b.Opens bag)
    (hcodecs : b.Decompresses codecs) {quiet : List ChunkRecord} {m : MessageRecord}
    {rest : List (List ChunkRecord)} (hcontents : b.contents = quiet :: [.message m] :: rest)
    (hquiet : quiet.filterMap ChunkRecord.message? = []) (hend : ChunkRecord.EndsInData quiet)
    (hempty : m.data = []) (n : ℕ) :
    ∃ s e, (View.wrapper .all n bag).scan.Blocks bag.file codecs s e := by
  obtain ⟨-, hbuffer, hbytes, hiter⟩ := View.wrapper_front .all n bag
  have hkeeps := keeps_contents hopens hcodecs n
  rw [hcontents] at hkeeps
  obtain ⟨c₀, cs, hkeeps₀, hcs, hchunks⟩ := List.forall₂_cons_right_iff.1 hkeeps
  obtain ⟨c₁, cs, hkeeps₁, -, rfl⟩ := List.forall₂_cons_right_iff.1 hcs
  obtain ⟨ms, hms, hread⟩ := hkeeps₀.exists_chunkHolds hend
  rw [hquiet, List.forall₂_nil_left_iff] at hread
  subst hread
  obtain ⟨chunk, hchunk, hsize, hdecompress⟩ := hkeeps₁.chunk
  have hpos : 0 < chunk.uncompressedSize := by
    rw [hsize]
    exact hkeeps₁.size_pos
  -- the message has no data, and the chunk no byte behind its header
  have hscan := scanRecord_of_occursAt (ChunkRecord.header_ne_nil (.message m))
    (@ChunkRecord.occursAt_record _ [] [] (.message m) rfl)
  have hdata : ¬ ((ChunkRecord.message m).record.data ≠ [] ∨ ([] : List ChunkRecord) ≠ []) := by
    rintro (hdata | hdata)
    · exact hdata hempty
    · exact hdata rfl
  rw [if_neg (mt (ChunkRecord.data_lt_iff []).1 hdata)] at hscan
  refine ⟨_, _, hbuffer, ⟨hbytes, hiter⟩, ⟨0, c₁, ?_, by rw [hchunks]; rfl,
    .record hchunk hpos hdecompress .refl rfl hpos (.bounds hscan)⟩, ?_⟩
  · intro k hk
    obtain rfl := Nat.le_zero.1 hk
    exact ⟨c₀, [], by rw [hchunks]; rfl, hms, rfl⟩
  · intro buffer hsome
    cases hsome
    refine ⟨[], .nil ?_, rfl⟩
    have hlength := (ChunkRecord.message m).length_encode
    have hone : ChunkRecord.encodeAll [.message m] = (ChunkRecord.message m).encode := List.append_nil _
    have hzero : (ChunkRecord.message m).record.data.length = 0 := by
      rw [show (ChunkRecord.message m).record.data = [] from hempty, List.length_nil]
    have hnone : (ChunkRecord.encodeAll []).length = 0 := rfl
    dsimp only
    rw [hsize, hone]
    omega

section Sample

open LittleEndian

def quietRecords : List ChunkRecord := [.connection (sampleConnection true) (List.Perm.refl _)]

def quietChunk : FileChunk where
  compression := bytes "lz4"
  size := (ChunkRecord.encodeAll quietRecords).length
  record := {
    header := .of [(bytes "op", [5]), (bytes "compression", bytes "lz4"),
      (bytes "size", le 4 (ChunkRecord.encodeAll quietRecords).length)] (by decide)
    data := sampleFrame (ChunkRecord.encodeAll quietRecords)
    fits := by decide }
  index := []
  compression_mem := lz4_mem_compressions
  sizeFits := by decide
  has := List.Subset.refl _

/-- The chunk behind it has a message without data. -/
def blockedInfo (second : Bool) : FileChunkInfo where
  chunk := cond second 1 0
  position := cond second 248 90
  startTime := ⟨5, 0⟩
  endTime := ⟨5, 0⟩
  count := cond second 1 0
  record := {
    header := .of [(bytes "op", [6]), (bytes "ver", le 4 1), (bytes "chunk_pos", le 8 (cond second 248 90)),
      (bytes "start_time", le 4 (5 : UInt32).toNat ++ le 4 (0 : UInt32).toNat),
      (bytes "end_time", le 4 (5 : UInt32).toNat ++ le 4 (0 : UInt32).toNat),
      (bytes "count", le 4 (cond second 1 0))] (by cases second <;> decide)
    data := []
    fits := nil_fits }
  positionFits := by cases second <;> decide
  countFits := cond_fits second
  has := List.Subset.refl _

def blockedBag : StoredBag where
  record := {
    header := .of [(bytes "op", [3]), (bytes "index_pos", le 8 398),
      (bytes "conn_count", le 4 2), (bytes "chunk_count", le 4 2)] (by decide)
    data := []
    fits := nil_fits }
  chunks := [quietChunk, sampleChunk true]
  padding := []
  connections := [sampleConnection false, sampleConnection true]
  infos := [blockedInfo false, blockedInfo true]
  trailer := []
  has := by decide +kernel
  ids := List.Perm.refl _
  infosOf := List.Perm.refl _
  positions := by decide +kernel
  counts := by decide
  indexed := by decide
  messages := by decide
  connectionsFit := two_fits
  chunksFit := two_fits
  size := by decide +kernel
  contents := [quietRecords, sampleRecords true]
  stored := .cons ⟨by simp [quietRecords], rfl, fun h => absurd h lz4_ne_none⟩
    (.cons ⟨by simp [sampleRecords], rfl, fun _ => rfl⟩ .nil)
  known := by simp [quietRecords, sampleRecords, ChunkRecord.connectionId, sampleMessage, sampleConnection]
  accepted := accepted_sampleConnection

theorem endsInData_quietRecords : ChunkRecord.EndsInData quietRecords := by
  intro r hr
  cases hr
  decide

theorem decompresses_blockedBag : blockedBag.Decompresses sampleShared.own.codecs := by
  have hlz4 : bytes "none" ≠ bytes "lz4" := by decide
  have hbz2 : bytes "none" ≠ bytes "bz2" := by decide
  have hnot : bytes "lz4" ≠ bytes "bz2" := by decide
  exact .cons ⟨fun _ => by decide +kernel, fun h => absurd h hnot⟩
    (.cons ⟨fun h => absurd h hlz4, fun h => absurd h hbz2⟩ .nil)

theorem endsWithFrames_blockedBag : blockedBag.bag.file.EndsWithFrames IsSampleFrame := by
  refine blockedBag.opens_bag.endsWithFrames fun c hc hcompression => ?_
  rcases List.mem_pair.1 hc with rfl | rfl
  · have hframe := endsWithFrame_sample (ChunkRecord.encodeAll quietRecords) [] (by decide)
    rwa [List.append_nil] at hframe
  · exact absurd hcompression (by decide)

theorem endsWithFrames_sampleWorld (empty : Bool) :
    (View.getMessages .all { bags := [0] } { bags := [sampleOpened empty] }).1.EndsWithFrames IsSampleFrame [0] := by
  refine World.endsWithFrames_of_files (fun bag hbag => ?_) [0]
  have hbags : ∀ b ∈ ({ bags := [0] } : View).bags, b < ({ bags := [sampleOpened empty] } : World).bags.length := by
    simp
  rw [files_eq_of_bags (View.wrapped_getMessages .all hbags).bags] at hbag
  obtain ⟨opened, hopened, rfl⟩ := List.mem_map.1 hbag
  rw [List.mem_singleton.1 hopened]
  refine (BagFile.opens_of_ofBytes (ofBytes_sampleBag empty)).endsWithFrames fun c hc hcompression => ?_
  cases List.mem_singleton.1 hc
  exact absurd hcompression (show bytes "none" ≠ bytes "lz4" by decide)

def blockedWorld : World := { bags := [blockedBag.bag] }

theorem lt_length_blockedWorld : ∀ b ∈ ({ bags := [0] } : View).bags, b < blockedWorld.bags.length := by
  simp [blockedWorld]

theorem endsWithFrames_blockedWorld :
    (View.getMessages .all { bags := [0] } blockedWorld).1.EndsWithFrames IsSampleFrame [0] := by
  refine World.endsWithFrames_of_files (fun bag hbag => ?_) [0]
  rw [files_eq_of_bags (View.wrapped_getMessages .all lt_length_blockedWorld).bags] at hbag
  obtain ⟨opened, hopened, rfl⟩ := List.mem_map.1 hbag
  have hbag : opened = blockedBag.bag := List.mem_singleton.1 hopened
  rw [hbag]
  exact endsWithFrames_blockedBag

theorem blocked_blockedWorld : (View.getMessages .all { bags := [0] } blockedWorld).1.ReadableOrBlocked
    sampleShared.own [0] := by
  have hopens := blockedBag.opens_bag
  have hwrapped := View.wrapped_getMessages .all lt_length_blockedWorld
  obtain ⟨bag, hbag, hw⟩ := @hwrapped.wrapper 0 0 rfl
  have heq : blockedBag.bag = bag := Option.some.inj hbag
  subst heq
  obtain ⟨s, e, hblocks⟩ := StoredBag.exists_blocks hopens decompresses_blockedBag rfl rfl
    endsInData_quietRecords rfl 0
  refine .inr ⟨[], 0, [], _, blockedBag.bag.file, s, e, rfl, by simp, hw, ?_, ?_⟩
  · rw [files_eq_of_bags hwrapped.bags]
    exact files_getElem? hbag
  · exact hblocks

end Sample

/-- The record at which `begin` throws is in its way every time. -/
theorem View.losesNothing_sample :
    (Session.throwsAtShared sampleShared [0] sampleShared.lz4.created
      { world := (View.getMessages .all { bags := [0] } blockedWorld).1 } .begin).isSome ∧
    let st := Session.callsShared sampleShared [0] sampleShared.lz4.created
      { world := (View.getMessages .all { bags := [0] } blockedWorld).1 } [.begin, .begin]
    st.2.LosesNothingShared sampleShared [0] (View.getMessages .all { bags := [0] } blockedWorld).1 st.1 := by
  refine ⟨by decide +kernel, ?_⟩
  have horder : [0].Perm (View.getMessages .all { bags := [0] } blockedWorld).2.wrappers := by decide +kernel
  exact losesNothing_of_readableOrBlocked documented_sampleShared lt_length_blockedWorld horder
    endsWithFrames_blockedWorld blocked_blockedWorld documented_sampleShared.created [.begin, .begin]

theorem World.Pass.beginThrows {env : Env} {order : List ℕ} {world : World}
    {out : List (ℕ × RosMessage)} (h : world.Pass env order out none) :
    world.beginThrows env order [] = none := by
  cases h with
  | ends hbegin _ _ => exact beginThrows_eq_none (begin_ok hbegin)

theorem World.Pass.not_throws {env : Env} {order : List ℕ} {world : World} {out : List (ℕ × RosMessage)}
    {place : Place} (h : (world.begin env order).2.toOption.map Iterator.msgQueue = some []) :
    ¬ world.Pass env order out (some place) := by
  rcases hbegin : world.begin env order with ⟨world₁, e | it⟩
  · rw [hbegin] at h
    cases h
  have hqueue : it.msgQueue = [] := by
    rw [hbegin] at h
    exact Option.some.inj h
  intro hpass
  cases hpass with
  | fails hthrows =>
    rw [beginThrows_eq_none (begin_ok hbegin)] at hthrows
    cases hthrows
  | throws hbegin' hsteps hthrows =>
    rw [hbegin] at hbegin'
    cases hbegin'
    obtain ⟨-, heq⟩ := hsteps.eq_of_atEnd (by simp [Iterator.atEnd, hqueue])
    cases heq
    rw [Iterator.throwsAt, hqueue] at hthrows
    cases hthrows

theorem World.not_losesNothing {env : SharedEnv} {AtBoundary : env.lz4.Context → Prop}
    {IsFrame : Bytes → Bytes → Prop} (hlz4 : env.lz4.Documented AtBoundary IsFrame) {order : List ℕ}
    {fresh : World} (hframes : fresh.EndsWithFrames IsFrame order) {place : Place}
    (hthrows : fresh.beginThrowsShared env order [] env.lz4.created = some place)
    (hends : ((fresh.begin env.own order).1.begin env.own order).2.toOption.map Iterator.msgQueue = some []) :
    ¬ ({ world := fresh } : Session).LosesNothingShared env order fresh env.lz4.created := by
  intro h
  have hstart : ({ world := fresh } : Session).EndsWithFrames IsFrame order := ⟨hframes, by simp⟩
  obtain ⟨hcontext, hcall, -⟩ := SharedEnv.callShared_spec hlz4 hlz4.created hstart .begin
  have hbehind := hstart.call env.own .begin
  rw [← hcall] at hbehind
  rcases h.later (c := .begin) hthrows [] with ⟨out, hpass⟩ | ⟨out, -, hall⟩
  · have hpass' := (SharedEnv.passShared_iff hlz4 hcontext hbehind.world).1 hpass
    rw [hcall, Session.call_begin_world] at hpass'
    exact World.Pass.not_throws hends hpass'
  · have hnone := ((SharedEnv.passShared_iff hlz4 hlz4.created hframes).1 hall).beginThrows
    obtain ⟨-, hown, -⟩ := SharedEnv.beginLoopShared_spec hlz4 hlz4.created (hframes.settles env False)
      (fun _ hp => hp) []
    rw [← hown, hthrows] at hnone
    cases hnone

/-- The record at which `begin` throws is left behind. -/
theorem View.not_losesNothing_sample :
    ¬ let st := Session.callsShared sampleShared [0] sampleShared.lz4.created
        { world := (View.getMessages .all { bags := [0] } { bags := [sampleOpened true] }).1 } []
      st.2.LosesNothingShared sampleShared [0]
        (View.getMessages .all { bags := [0] } { bags := [sampleOpened true] }).1 st.1 := by
  have hthrows : (World.beginThrowsShared sampleShared [0] [] sampleShared.lz4.created
      (View.getMessages .all { bags := [0] } { bags := [sampleOpened true] }).1).isSome := by decide +kernel
  have hends : ((World.begin sampleShared.own [0] (World.begin sampleShared.own [0]
      (View.getMessages .all { bags := [0] } { bags := [sampleOpened true] }).1).1).2.toOption.map
        Iterator.msgQueue) = some [] := by decide +kernel
  obtain ⟨place, hplace⟩ := Option.isSome_iff_exists.1 hthrows
  exact World.not_losesNothing documented_sampleShared (endsWithFrames_sampleWorld true) hplace hends

end Embag
