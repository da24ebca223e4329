import Embag.Decompression

/-! LZ4 with partial progress. Any call may use up a part of its source and fill a part of its
destination, and goes on where the one before it stopped; the loop moves neither pointer, so
that only the first call has the source and the destination it is meant to have. -/

namespace Embag

open Loops

namespace Lz4f

/-- What is documented of progress. A context has taken some bytes of a stream and given some of
its content; the next call goes on from there, whatever the caller hands it, and a stream is
not used up before its content is given. -/
structure Continues (lz4 : Lz4f) (Within : lz4.Context → Bytes → Bytes → Prop)
    (Encodes : Bytes → Bytes → Prop) : Prop where
  created : Within lz4.created [] []
  continues : ∀ {c c' fed given n src r}, Within c fed given → lz4.decompress c n src = (c', .ok r) →
    Within c' (fed ++ src.take r.read) (given ++ r.written)
  sound : ∀ {c fed given stored content}, Within c fed given → Encodes stored content →
    fed <+: stored → given <+: content
  complete : ∀ {c stored given content}, Within c stored given → Encodes stored content →
    given = content

/-- The chunk throws, or leaves what it encodes, which has the size of the destination. -/
def DecodesChunk (lz4 : Lz4f) (Encodes : Bytes → Bytes → Prop) (context : lz4.Context)
    (stored : Bytes) (size : ℕ) : Prop :=
  ∀ content, Encodes stored content →
    (∃ e, (lz4.decompressLz4Chunk context stored size).2.2 = .error e ∧ e.thrown = true) ∨
      (lz4.decompressLz4Chunk context stored size).2 = (content, .ok ()) ∧ content.length = size

/-- Every decoder that, in its first call for a chunk of `srcLen` bytes, reads and writes so
many bytes, or fails, decodes the chunk. -/
def CorrectAfter (srcLen size read written : ℕ) : Prop :=
  ∀ (lz4 : Lz4f) (Within : lz4.Context → Bytes → Bytes → Prop) (Encodes : Bytes → Bytes → Prop),
    lz4.Continues Within Encodes → ∀ context stored, Within context [] [] → stored.length = srcLen →
      (∀ r, (lz4.decompress context size stored).2 = .ok r →
        r.read = read ∧ r.written.length = written) →
      lz4.DecodesChunk Encodes context stored size

section OneCall

variable {lz4 : Lz4f} {stored : Bytes} {s : lz4.Progress}

theorem turn_of_used (stored : Bytes) (h : s.dstBytesLeft = 0 ∨ s.srcBytesLeft = 0) :
    s.turn stored = (s, some (.ok ())) ∧ s.dstBytesLeft = 0 ∧ s.srcBytesLeft = 0 ∨
      ∃ e, s.turn stored = (s, some (.error e)) ∧ e.thrown = true := by
  unfold Progress.turn
  rw [if_neg (by omega)]
  split_ifs with hleft
  · exact .inr ⟨_, rfl, rfl⟩
  · exact .inl ⟨rfl, by omega, by omega⟩

theorem turn_of_ok {context : lz4.Context} {r : Lz4Result} (hdst : s.dstBytesLeft ≠ 0)
    (hsrc : s.srcBytesLeft ≠ 0)
    (hcall : lz4.decompress s.context s.dstBytesLeft (stored.take s.srcBytesLeft) = (context, .ok r)) :
    s.turn stored = (⟨context, r.written ++ s.dst.drop r.written.length, s.srcBytesLeft - r.read,
      s.dstBytesLeft - r.written.length⟩, none) := by
  rw [Progress.turn, if_pos ⟨hdst, hsrc⟩, hcall]

theorem turn_of_error {context : lz4.Context} {code : ℕ × ℕ} (hdst : s.dstBytesLeft ≠ 0)
    (hsrc : s.srcBytesLeft ≠ 0)
    (hcall : lz4.decompress s.context s.dstBytesLeft (stored.take s.srcBytesLeft) = (context, .error code)) :
    ∃ s' e, s.turn stored = (s', some (.error e)) ∧ e.thrown = true := by
  rw [Progress.turn, if_pos ⟨hdst, hsrc⟩, hcall]
  exact ⟨_, _, rfl, rfl⟩

theorem iterate_of_result {s' : lz4.Progress} {r : Except Fault Unit} (k : ℕ)
    (h : s.turn stored = (s', some r)) : iterate (Progress.turn stored) (k + 1) s = (s', some r) := by
  rw [iterate, h]

theorem decompressLz4Chunk_of_iterate {context : lz4.Context} {size : ℕ} {r : Except Fault Unit}
    (h : iterate (Progress.turn stored) (stored.length + size + 1) (Progress.start context stored size) =
      (s, some r)) : lz4.decompressLz4Chunk context stored size = (s.context, s.dst, r) := by
  rw [Progress.start] at h
  rw [decompressLz4Chunk, h]

theorem decodesChunk_of_used {Within : lz4.Context → Bytes → Bytes → Prop}
    {Encodes : Bytes → Bytes → Prop} (hlz4 : lz4.Continues Within Encodes) {context : lz4.Context}
    {size : ℕ} (hcontext : Within context [] [])
    (hused : ∀ r, (lz4.decompress context size stored).2 = .ok r →
      stored.length ≤ r.read ∨ size ≤ r.written.length) : lz4.DecodesChunk Encodes context stored size := by
  intro content hcontent
  by_cases hidle : size = 0 ∨ stored.length = 0
  · rcases turn_of_used stored (s := Progress.start context stored size) hidle with
      ⟨hturn, hdst, hsrc⟩ | ⟨e, hturn, he⟩
    · rw [decompressLz4Chunk_of_iterate (iterate_of_result _ hturn)]
      have hsize : size = 0 := hdst
      have hnil : stored = [] := List.length_eq_zero_iff.1 hsrc
      have hwithin : Within context stored [] := by rwa [hnil]
      have hgiven := hlz4.complete hwithin hcontent
      rw [← hgiven, hsize]
      exact .inr ⟨rfl, rfl⟩
    · rw [decompressLz4Chunk_of_iterate (iterate_of_result _ hturn)]
      exact .inl ⟨e, rfl, he⟩
  obtain ⟨hdst, hsrc⟩ := not_or.1 hidle
  rcases hcall : lz4.decompress context size stored with ⟨context', code | r⟩
  · rw [← List.take_length (l := stored)] at hcall
    obtain ⟨s', e, hturn, he⟩ :=
      turn_of_error (s := Progress.start context stored size) hdst hsrc hcall
    rw [decompressLz4Chunk_of_iterate (iterate_of_result _ hturn)]
    exact .inl ⟨e, rfl, he⟩
  have hturn := turn_of_ok (s := Progress.start context stored size) hdst hsrc
    ((congrArg _ List.take_length).trans hcall)
  have hread := lz4.read_le hcall
  have hwritten := lz4.written_le hcall
  have hleft : size - r.written.length = 0 ∨ stored.length - r.read = 0 := by
    have := hused r (by rw [hcall])
    omega
  obtain ⟨k, hk⟩ : ∃ k, stored.length + size = k + 1 := ⟨stored.length + size - 1, by omega⟩
  rcases turn_of_used stored (s := ⟨context', r.written ++
      (List.replicate size 0).drop r.written.length, stored.length - r.read,
        size - r.written.length⟩) hleft with ⟨hturn', hdst', hsrc'⟩ | ⟨e, hturn', he⟩
  · rw [decompressLz4Chunk_of_iterate (by rw [iterate, hturn, hk]; exact iterate_of_result _ hturn')]
    simp only at hdst' hsrc'
    have hsize : r.written.length = size := by omega
    have hwithin := hlz4.continues hcontext hcall
    rw [List.take_of_length_le (by omega), List.nil_append, List.nil_append] at hwithin
    have hgiven := hlz4.complete hwithin hcontent
    rw [hgiven] at hsize
    rw [hgiven, List.drop_of_length_le (by rw [List.length_replicate, hsize]), List.append_nil]
    exact .inr ⟨rfl, hsize⟩
  · rw [decompressLz4Chunk_of_iterate (by rw [iterate, hturn, hk]; exact iterate_of_result _ hturn')]
    exact .inl ⟨e, rfl, he⟩

end OneCall

inductive Stage
  | fresh
  | begun
  | ended
  | broken
  deriving DecidableEq

/-- A stream of one 1 in front of zeros. -/
def marked (n : ℕ) : Bytes := 1 :: List.replicate (n - 1) 0

/-- The calls of a decoder that first makes the progress it is told, and takes what is left of
source and destination in the second call. -/
def cutDecompress (srcLen size read written : ℕ) : Stage → ℕ → Bytes →
    Stage × Except (ℕ × ℕ) Lz4Result
  | .fresh, n, src =>
    if n = size ∧ src = marked srcLen then
      (.begun, .ok { written := (marked size).take written, read, hint := 1 })
    else (.broken, .error (1, 0))
  | .begun, n, src =>
    if n = size - written ∧ src = (marked srcLen).take (srcLen - read) then
      (.ended, .ok { written := List.replicate (size - written) 0, read := srcLen - read, hint := 0 })
    else (.broken, .error (1, 0))
  | .ended, _, _ => (.broken, .error (1, 0))
  | .broken, _, _ => (.broken, .error (1, 0))

section Cut

variable {srcLen size read written : ℕ}

theorem length_marked (h : 0 < srcLen) : (marked srcLen).length = srcLen := by
  rw [marked, List.length_cons, List.length_replicate]
  omega

theorem cutDecompress_cases {c c' : Stage} {n : ℕ} {src : Bytes} {r : Lz4Result}
    (h : cutDecompress srcLen size read written c n src = (c', .ok r)) :
    (c = .fresh ∧ c' = .begun ∧ n = size ∧ src = marked srcLen ∧
        r = { written := (marked size).take written, read, hint := 1 }) ∨
      c = .begun ∧ c' = .ended ∧ n = size - written ∧ src = (marked srcLen).take (srcLen - read) ∧
        r = { written := List.replicate (size - written) 0, read := srcLen - read, hint := 0 } := by
  cases c <;> rw [cutDecompress] at h
  · split_ifs at h with hcall
    · cases h
      exact .inl ⟨rfl, rfl, hcall.1, hcall.2, rfl⟩
    · cases (Prod.mk.inj h).2
  · split_ifs at h with hcall
    · cases h
      exact .inr ⟨rfl, rfl, hcall.1, hcall.2, rfl⟩
    · cases (Prod.mk.inj h).2
  · cases (Prod.mk.inj h).2
  · cases (Prod.mk.inj h).2

def cutLz4f (hread : read < srcLen) (hwritten : written < size) (hprogress : 0 < read ∨ 0 < written) :
    Lz4f where
  Context := Stage
  created := .fresh
  decompress := cutDecompress srcLen size read written
  written_le h := by
    rcases cutDecompress_cases h with ⟨-, -, rfl, -, rfl⟩ | ⟨-, -, rfl, -, rfl⟩
    · rw [List.length_take]
      omega
    · rw [List.length_replicate]
  read_le h := by
    have hlength := length_marked (Nat.zero_lt_of_lt hread)
    rcases cutDecompress_cases h with ⟨-, -, -, rfl, rfl⟩ | ⟨-, -, -, rfl, rfl⟩
    · exact hlength.symm ▸ hread.le
    · rw [List.length_take]
      simp only
      omega
  advances _ _ h := by
    have hlength := length_marked (Nat.zero_lt_of_lt hwritten)
    rcases cutDecompress_cases h with ⟨-, -, -, -, rfl⟩ | ⟨-, -, -, -, rfl⟩
    · rw [List.length_take]
      simp only
      omega
    · simp only
      omega

def CutWithin (srcLen size read written : ℕ) : Stage → Bytes → Bytes → Prop
  | .fresh, fed, given => fed = [] ∧ given = []
  | .begun, fed, given => fed = (marked srcLen).take read ∧ given = (marked size).take written
  | .ended, fed, given =>
    fed = (marked srcLen).take read ++ (marked srcLen).take (srcLen - read) ∧
      given = (marked size).take written ++ List.replicate (size - written) 0
  | .broken, _, _ => False

/-- The front of the stream in place of its rest makes another stream, unless nothing of it
had been taken; then the rest of the content is what follows. -/
theorem ended_given (hread : read < srcLen) (hwritten : written < size)
    (hprogress : 0 < read ∨ 0 < written)
    (h : (marked srcLen).take read ++ (marked srcLen).take (srcLen - read) = marked srcLen) :
    (marked size).take written ++ List.replicate (size - written) 0 = marked size := by
  rcases Nat.eq_zero_or_pos written with rfl | hpos
  · have hlength : ((marked srcLen).take read).length = read := by
      rw [List.length_take, length_marked (Nat.zero_lt_of_lt hread)]
      omega
    obtain ⟨k, rfl⟩ : ∃ k, read = k + 1 := ⟨read - 1, by omega⟩
    obtain ⟨left, hleft⟩ : ∃ left, srcLen - (k + 1) = left + 1 := ⟨srcLen - (k + 1) - 1, by omega⟩
    have hat := congrArg (fun bs => bs[k + 1]?) h
    rw [List.getElem?_append_right hlength.le, hlength, Nat.sub_self, hleft, marked, List.take_succ_cons,
      List.getElem?_cons_zero, List.getElem?_cons_succ, List.getElem?_replicate, if_pos (by omega)] at hat
    cases hat
  · obtain ⟨k, rfl⟩ : ∃ k, written = k + 1 := ⟨written - 1, by omega⟩
    rw [marked, List.take_succ_cons, List.take_replicate, List.cons_append,
      List.replicate_append_replicate]
    congr 2
    omega

theorem continues_cutLz4f (hread : read < srcLen) (hwritten : written < size)
    (hprogress : 0 < read ∨ 0 < written) :
    (cutLz4f hread hwritten hprogress).Continues (CutWithin srcLen size read written)
      (fun stored content => stored = marked srcLen ∧ content = marked size) where
  created := ⟨rfl, rfl⟩
  continues {c c' fed given n src r} hwithin h := by
    have hlength := length_marked (Nat.zero_lt_of_lt hread)
    rcases cutDecompress_cases h with ⟨rfl, rfl, -, rfl, rfl⟩ | ⟨rfl, rfl, -, rfl, rfl⟩
    · obtain ⟨rfl, rfl⟩ := hwithin
      exact ⟨rfl, rfl⟩
    · obtain ⟨rfl, rfl⟩ := hwithin
      refine ⟨?_, rfl⟩
      rw [List.take_of_length_le (i := srcLen - read)]
      rw [List.length_take]
      omega
  sound {c fed given stored content} hwithin h hfed := by
    obtain ⟨rfl, rfl⟩ := h
    cases c with
    | fresh =>
      obtain ⟨-, rfl⟩ := hwithin
      exact List.nil_prefix
    | begun =>
      obtain ⟨-, rfl⟩ := hwithin
      exact List.take_prefix _ _
    | ended =>
      obtain ⟨rfl, rfl⟩ := hwithin
      have hlength := length_marked (Nat.zero_lt_of_lt hread)
      have heq := hfed.eq_of_length (by
        rw [List.length_append, List.length_take, List.length_take]
        omega)
      rw [ended_given hread hwritten hprogress heq]
    | broken => exact hwithin.elim
  complete {c stored given content} hwithin h := by
    obtain ⟨rfl, rfl⟩ := h
    have hlength := length_marked (Nat.zero_lt_of_lt hread)
    cases c with
    | fresh => exact absurd hwithin.1 (List.cons_ne_nil _ _)
    | begun =>
      have htaken := congrArg List.length hwithin.1
      rw [List.length_take] at htaken
      omega
    | ended =>
      obtain ⟨hfed, rfl⟩ := hwithin
      exact ended_given hread hwritten hprogress hfed.symm
    | broken => exact hwithin.elim

/-- The content of the second call is written over that of the first. -/
theorem decompressLz4Chunk_cutLz4f (hread : read < srcLen) (hwritten : written < size)
    (hprogress : 0 < read ∨ 0 < written) :
    ∃ context dst, (cutLz4f hread hwritten hprogress).decompressLz4Chunk
        (cutLz4f hread hwritten hprogress).created (marked srcLen) size = (context, dst, .ok ()) ∧
      dst.head? = some 0 := by
  have hlength := length_marked (Nat.zero_lt_of_lt hread)
  have hlength' := length_marked (Nat.zero_lt_of_lt hwritten)
  have hfront : ((marked size).take written).length = written := by
    rw [List.length_take]
    omega
  set lz4 := cutLz4f hread hwritten hprogress with hlz4
  have hfirst : lz4.decompress lz4.created size ((marked srcLen).take (marked srcLen).length) =
      (.begun, .ok { written := (marked size).take written, read, hint := 1 }) := by
    rw [List.take_length]
    exact if_pos ⟨rfl, rfl⟩
  have hturn := turn_of_ok (s := (Progress.start lz4.created (marked srcLen) size))
    (by simp only [Progress.start]; omega) (by simp only [Progress.start]; omega) hfirst
  simp only [Progress.start, hfront, hlength] at hturn
  have hsecond : lz4.decompress .begun (size - written) ((marked srcLen).take (srcLen - read)) =
      (.ended, .ok { written := List.replicate (size - written) 0, read := srcLen - read, hint := 0 }) :=
    if_pos ⟨rfl, rfl⟩
  have hturn' := turn_of_ok (s := (⟨.begun, (marked size).take written ++ (List.replicate size 0).drop written,
    srcLen - read, size - written⟩ : lz4.Progress)) (by simp only; omega) (by simp only; omega) hsecond
  simp only [List.length_replicate, Nat.sub_self] at hturn'
  obtain ⟨k, hk⟩ : ∃ k, (marked srcLen).length + size = k + 2 :=
    ⟨(marked srcLen).length + size - 2, by omega⟩
  have hlast : ∀ dst, (⟨.ended, dst, 0, 0⟩ : lz4.Progress).turn (marked srcLen) =
      (⟨.ended, dst, 0, 0⟩, some (.ok ())) := fun _ => rfl
  have hrun := @decompressLz4Chunk_of_iterate lz4 (marked srcLen) _ lz4.created size _ (by
    rw [hk, iterate, Progress.start, hlength, hturn]
    simp only
    rw [iterate, hturn']
    exact iterate_of_result _ (hlast _))
  obtain ⟨room, hroom⟩ : ∃ room, size - written = room + 1 := ⟨size - written - 1, by omega⟩
  exact ⟨_, _, hrun, by rw [hroom]; rfl⟩

end Cut

/-- The chunk is decoded whatever else the decoder does exactly if its first call uses up the
source or fills the destination. -/
theorem correctAfter_iff {srcLen size read written : ℕ} (hprogress : 0 < read ∨ 0 < written) :
    CorrectAfter srcLen size read written ↔ srcLen ≤ read ∨ size ≤ written := by
  constructor
  · intro h
    by_contra hpartial
    rw [not_or, Nat.not_le, Nat.not_le] at hpartial
    obtain ⟨hread, hwritten⟩ := hpartial
    have hlength := length_marked (Nat.zero_lt_of_lt hread)
    have hlength' := length_marked (Nat.zero_lt_of_lt hwritten)
    have hfront : ((marked size).take written).length = written := by
      rw [List.length_take]
      omega
    have hchunk := h (cutLz4f hread hwritten hprogress) _ _ (continues_cutLz4f hread hwritten hprogress)
      (cutLz4f hread hwritten hprogress).created (marked srcLen) ⟨rfl, rfl⟩ hlength (by
        intro r hr
        rcases cutDecompress_cases (Prod.ext rfl hr) with ⟨-, -, -, -, rfl⟩ | ⟨hstage, -⟩
        · exact ⟨rfl, hfront⟩
        · cases hstage) (marked size) ⟨rfl, rfl⟩
    obtain ⟨context, dst, hresult, hhead⟩ := decompressLz4Chunk_cutLz4f hread hwritten hprogress
    rw [hresult] at hchunk
    rcases hchunk with ⟨e, he, -⟩ | ⟨hdst, -⟩
    · cases he
    · rw [(Prod.mk.inj hdst).1] at hhead
      cases hhead
  · intro hused lz4 Within Encodes hlz4 context stored hcontext hstored hfirst
    apply decodesChunk_of_used hlz4 hcontext
    intro r hr
    obtain ⟨hread, hwritten⟩ := hfirst r hr
    omega

theorem correctAfter_sample : CorrectAfter 13 2 13 2 ↔ 13 ≤ 13 ∨ 2 ≤ 2 :=
  correctAfter_iff (by decide)

/-- Two calls that read one byte each and write one: the second reads the first byte again and
writes over what the first has written. -/
theorem not_decodesChunk_sample :
    (cutLz4f (show 1 < 2 by decide) (show 1 < 2 by decide) (.inl Nat.zero_lt_one)).Continues
        (CutWithin 2 2 1 1) (fun stored content => stored = marked 2 ∧ content = marked 2) ∧
      ¬ (cutLz4f (show 1 < 2 by decide) (show 1 < 2 by decide) (.inl Nat.zero_lt_one)).DecodesChunk
        (fun stored content => stored = marked 2 ∧ content = marked 2) Stage.fresh [1, 0] 2 := by
  refine ⟨continues_cutLz4f _ _ _, fun h => ?_⟩
  have hresult : (decompressLz4Chunk (cutLz4f (show 1 < 2 by decide) (show 1 < 2 by decide)
      (.inl Nat.zero_lt_one)) Stage.fresh [1, 0] 2).2 = ([0, 0], .ok ()) := rfl
  rcases h [1, 0] ⟨rfl, rfl⟩ with ⟨e, he, -⟩ | ⟨hdst, -⟩
  · rw [hresult] at he
    cases he
  · rw [hresult] at hdst
    cases hdst

end Lz4f

end Embag
