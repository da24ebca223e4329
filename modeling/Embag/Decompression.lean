import Embag.View

/-! The context of LZ4 that all chunks of all bags share. The library is a parameter, with what
its documentation says of a context; the loop over it is the source's. -/

namespace Embag

open LittleEndian Loops

/-- What `LZ4F_decompress` leaves in its arguments, and its return value when it is no error. -/
structure Lz4Result where
  written : Bytes
  read : ℕ
  hint : ℕ
  deriving DecidableEq, Repr

/-- `LZ4F_decompress`, by the room in the destination and the source. An error is a code, with
the number of bytes it reports as read. -/
structure Lz4f where
  Context : Type
  created : Context
  decompress : Context → ℕ → Bytes → Context × Except (ℕ × ℕ) Lz4Result
  written_le : ∀ {c n src c' r}, decompress c n src = (c', .ok r) → r.written.length ≤ n
  read_le : ∀ {c n src c' r}, decompress c n src = (c', .ok r) → r.read ≤ src.length
  advances : ∀ {c n src c' r}, 0 < n → src ≠ [] → decompress c n src = (c', .ok r) →
    0 < r.read ∨ 0 < r.written.length

/-- What is documented of a context: it can be used again when a frame is completely decoded,
which the return value 0 says and which is done with all of a frame at hand; it is within a
frame before, and in no known state after an error. -/
structure Lz4f.Documented (lz4 : Lz4f) (AtBoundary : lz4.Context → Prop)
    (IsFrame : Bytes → Bytes → Prop) : Prop where
  created : AtBoundary lz4.created
  reusable : ∀ {c}, AtBoundary c → lz4.decompress c = lz4.decompress lz4.created
  decoded : ∀ {c n src c' r}, 0 < n → src ≠ [] → lz4.decompress c n src = (c', .ok r) →
    (AtBoundary c' ↔ r.hint = 0)
  failed : ∀ {c n src c' e}, lz4.decompress c n src = (c', .error e) → ¬ AtBoundary c'
  frame : ∀ {c n src frame content}, AtBoundary c → IsFrame frame content → frame <+: src →
    content.length ≤ n →
    (lz4.decompress c n src).2 = .ok { written := content, read := frame.length, hint := 0 }
  nonempty : ∀ {frame content}, IsFrame frame content → frame ≠ []

namespace Lz4f

structure Progress (lz4 : Lz4f) where
  context : lz4.Context
  dst : Bytes
  srcBytesLeft : ℕ
  dstBytesLeft : ℕ

variable {lz4 : Lz4f}

/-- A turn of the loop. The pointers are not moved: every turn has the front of the stored
bytes for its source, and writes to the front of the destination. -/
def Progress.turn (stored : Bytes) (s : lz4.Progress) :
    lz4.Progress × Option (Except Fault Unit) :=
  if s.dstBytesLeft ≠ 0 ∧ s.srcBytesLeft ≠ 0 then
    match lz4.decompress s.context s.dstBytesLeft (stored.take s.srcBytesLeft) with
    | (context, .error (ret, srcBytesRead)) =>
      ({ s with context }, some (.error (.runtimeError
        (bytes "chunk::decompress: lz4 decompression returned " ++ bytes (toString ret) ++
          bytes ", expected " ++ bytes (toString srcBytesRead)))))
    | (context, .ok r) =>
      ({ context
         dst := r.written ++ s.dst.drop r.written.length
         srcBytesLeft := s.srcBytesLeft - r.read
         dstBytesLeft := s.dstBytesLeft - r.written.length }, none)
  else if s.srcBytesLeft ≠ 0 ∨ s.dstBytesLeft ≠ 0 then
    (s, some (.error (.runtimeError
      (bytes "chunk::decompress: lz4 decompression left " ++ bytes (toString s.srcBytesLeft) ++
        bytes "/" ++ bytes (toString s.dstBytesLeft) ++ bytes " bytes in buffer"))))
  else (s, some (.ok ()))

/-- `decompressLz4Chunk` into a new buffer, with the context as the last chunk left it -/
def decompressLz4Chunk (lz4 : Lz4f) (context : lz4.Context) (stored : Bytes) (size : ℕ) :
    lz4.Context × Bytes × Except Fault Unit :=
  match iterate (Progress.turn stored) (stored.length + size + 1)
      { context, dst := List.replicate size 0, srcBytesLeft := stored.length, dstBytesLeft := size } with
  | (s, some result) => (s.context, s.dst, result)
  | (s, none) => (s.context, s.dst, .error .outOfFuel)

/-- The context after chunks, each given by its stored bytes and its `uncompressed_size`; a
caller catches what they throw. -/
def contextAfter (lz4 : Lz4f) (chunks : List (Bytes × ℕ)) : lz4.Context :=
  chunks.foldl (fun context chunk => (lz4.decompressLz4Chunk context chunk.1 chunk.2).1) lz4.created

/-- Decoding the stored bytes ends with a frame. Every turn decodes the frame they begin with
once more, until the source or the destination is used up. -/
def EndsWithFrame (IsFrame : Bytes → Bytes → Prop) (stored : Bytes) (size : ℕ) : Prop :=
  stored = [] ∨ size = 0 ∨ ∃ frame content k, IsFrame frame content ∧ frame <+: stored ∧
    k * frame.length ≤ stored.length ∧ k * content.length ≤ size ∧
    (k * frame.length = stored.length ∨ k * content.length = size)

section Turns

variable {stored : Bytes} {size : ℕ} {s s' : lz4.Progress}

theorem turn_cases {r : Option (Except Fault Unit)} (h : s.turn stored = (s', r)) :
    s.dstBytesLeft ≠ 0 ∧ s.srcBytesLeft ≠ 0 ∧
        ((∃ e code, lz4.decompress s.context s.dstBytesLeft (stored.take s.srcBytesLeft) =
            (s'.context, .error code) ∧ r = some (.error e)) ∨
          ∃ result, lz4.decompress s.context s.dstBytesLeft (stored.take s.srcBytesLeft) =
              (s'.context, .ok result) ∧ r = none ∧
            s'.srcBytesLeft = s.srcBytesLeft - result.read ∧
            s'.dstBytesLeft = s.dstBytesLeft - result.written.length ∧
            s'.dst = result.written ++ s.dst.drop result.written.length) ∨
      (s.dstBytesLeft = 0 ∨ s.srcBytesLeft = 0) ∧ s' = s ∧ r ≠ none := by
  unfold Progress.turn at h
  split_ifs at h with hleft hsome
  · refine .inl ⟨hleft.1, hleft.2, ?_⟩
    rcases hcall : lz4.decompress s.context s.dstBytesLeft (stored.take s.srcBytesLeft) with
      ⟨context, ⟨ret, read⟩ | result⟩
    · rw [hcall] at h
      cases h
      exact .inl ⟨_, _, rfl, rfl⟩
    · rw [hcall] at h
      cases h
      exact .inr ⟨result, rfl, rfl, rfl, rfl, rfl⟩
  · cases h
    exact .inr ⟨by omega, rfl, nofun⟩
  · cases h
    exact .inr ⟨by omega, rfl, nofun⟩

/-- How far the frame at the front has been decoded, `j` times over. -/
def AfterFrames (AtBoundary : lz4.Context → Prop) (stored frame content : Bytes) (size j : ℕ)
    (s : lz4.Progress) : Prop :=
  AtBoundary s.context ∧ s.srcBytesLeft = stored.length - j * frame.length ∧
    s.dstBytesLeft = size - j * content.length

theorem AfterFrames.turn {AtBoundary : lz4.Context → Prop} {IsFrame : Bytes → Bytes → Prop}
    (hlz4 : lz4.Documented AtBoundary IsFrame) {frame content : Bytes} {j k : ℕ}
    (hframe : IsFrame frame content) (hfront : frame <+: stored)
    (hsrc : k * frame.length ≤ stored.length) (hdst : k * content.length ≤ size)
    (hend : k * frame.length = stored.length ∨ k * content.length = size)
    {r : Option (Except Fault Unit)} (hj : j ≤ k)
    (h : AfterFrames AtBoundary stored frame content size j s) (hturn : s.turn stored = (s', r)) :
    r ≠ none ∧ AtBoundary s'.context ∨
      r = none ∧ j + 1 ≤ k ∧ AfterFrames AtBoundary stored frame content size (j + 1) s' := by
  obtain ⟨hboundary, hsrcLeft, hdstLeft⟩ := h
  rcases turn_cases hturn with ⟨hdst0, hsrc0, hcall⟩ | ⟨-, rfl, hr⟩
  swap
  · exact .inl ⟨hr, hboundary⟩
  have hlt : j < k := by
    rcases hj.lt_or_eq with hlt | rfl
    · exact hlt
    · omega
  have hsrcStep : (j + 1) * frame.length ≤ k * frame.length := Nat.mul_le_mul_right _ hlt
  have hdstStep : (j + 1) * content.length ≤ k * content.length := Nat.mul_le_mul_right _ hlt
  rw [Nat.succ_mul] at hsrcStep hdstStep
  have hprefix : frame <+: stored.take s.srcBytesLeft := by
    rw [List.prefix_take_iff]
    exact ⟨hfront, by omega⟩
  have hok := hlz4.frame (n := s.dstBytesLeft) hboundary hframe hprefix (by omega)
  rcases hcall with ⟨e, code, hcall, -⟩ | ⟨result, hcall, rfl, hsrc', hdst', -⟩
  · rw [hcall] at hok
    cases hok
  · rw [hcall] at hok
    cases hok
    have hnext : AtBoundary s'.context :=
      (hlz4.decoded (by omega) (fun hnil => by
        rw [hnil] at hprefix
        exact hlz4.nonempty hframe (List.prefix_nil.1 hprefix)) hcall).2 rfl
    refine .inr ⟨rfl, hlt, hnext, ?_, ?_⟩
    · rw [hsrc', hsrcLeft, Nat.succ_mul]
      exact Nat.sub_sub _ _ _
    · rw [hdst', hdstLeft, Nat.succ_mul]
      exact Nat.sub_sub _ _ _

/-- What every turn keeps: the destination has its size, and no more is left than there is. -/
structure Sized (stored : Bytes) (size : ℕ) (s : lz4.Progress) : Prop where
  dst : s.dst.length = size
  srcLeft : s.srcBytesLeft ≤ stored.length
  dstLeft : s.dstBytesLeft ≤ size

theorem Sized.turn (h : Sized stored size s) {r : Option (Except Fault Unit)}
    (hturn : s.turn stored = (s', r)) : Sized stored size s' := by
  unfold Progress.turn at hturn
  split_ifs at hturn
  · rcases hcall : lz4.decompress s.context s.dstBytesLeft (stored.take s.srcBytesLeft) with
      ⟨context, ⟨ret, read⟩ | result⟩
    · rw [hcall] at hturn
      cases hturn
      exact ⟨h.dst, h.srcLeft, h.dstLeft⟩
    · rw [hcall] at hturn
      cases hturn
      have hwritten := lz4.written_le hcall
      have hdst := h.dst
      have hdstLeft := h.dstLeft
      refine ⟨?_, (Nat.sub_le _ _).trans h.srcLeft, (Nat.sub_le _ _).trans hdstLeft⟩
      rw [List.length_append, List.length_drop]
      omega
  · cases hturn
    exact h
  · cases hturn
    exact h

theorem Sized.turn_lt (h : Sized stored size s) (hturn : s.turn stored = (s', none)) :
    s'.srcBytesLeft + s'.dstBytesLeft < s.srcBytesLeft + s.dstBytesLeft := by
  rcases turn_cases hturn with ⟨hdst, hsrc, ⟨_, _, -, hr⟩ | ⟨result, hcall, -, hsrc', hdst', -⟩⟩ |
    ⟨-, -, hr⟩
  · cases hr
  · have hlength : (stored.take s.srcBytesLeft).length = s.srcBytesLeft := by
      rw [List.length_take]
      exact Nat.min_eq_left h.srcLeft
    have hsource : stored.take s.srcBytesLeft ≠ [] := by
      rw [← List.length_pos_iff, hlength]
      omega
    have hwritten := lz4.written_le hcall
    have hread := lz4.read_le hcall
    have hadvances := lz4.advances (by omega) hsource hcall
    omega
  · exact absurd rfl hr

end Turns

section Chunk

variable {stored : Bytes} {size : ℕ} {context : lz4.Context}

def Progress.start (context : lz4.Context) (stored : Bytes) (size : ℕ) : lz4.Progress where
  context
  dst := List.replicate size 0
  srcBytesLeft := stored.length
  dstBytesLeft := size

theorem sized_start : Sized stored size (Progress.start context stored size) :=
  ⟨List.length_replicate, le_rfl, le_rfl⟩

theorem decompressLz4Chunk_eq (context : lz4.Context) (stored : Bytes) (size : ℕ) :
    ∃ s r, iterate (Progress.turn stored) (stored.length + size + 1)
        (Progress.start context stored size) = (s, some r) ∧
      lz4.decompressLz4Chunk context stored size = (s.context, s.dst, r) := by
  have hstart : Sized stored size (Progress.start context stored size) := sized_start
  have hdecreases : ∀ {s s' : lz4.Progress}, Sized stored size s → s.turn stored = (s', none) →
      Sized stored size s' ∧
        s'.srcBytesLeft + s'.dstBytesLeft < s.srcBytesLeft + s.dstBytesLeft :=
    fun h hturn => ⟨h.turn hturn, h.turn_lt hturn⟩
  have hsome : (iterate (Progress.turn stored) (stored.length + size + 1)
      (Progress.start context stored size)).2.isSome :=
    iterate_isSome hdecreases hstart (Nat.lt_succ_self _)
  rw [decompressLz4Chunk]
  rcases hrun : iterate (Progress.turn stored) (stored.length + size + 1)
    (Progress.start context stored size) with ⟨s, _ | r⟩
  · simp [hrun] at hsome
  · exact ⟨s, r, rfl, by rw [Progress.start] at hrun; rw [hrun]⟩

theorem length_decompressLz4Chunk (context : lz4.Context) (stored : Bytes) (size : ℕ) :
    (lz4.decompressLz4Chunk context stored size).2.1.length = size := by
  obtain ⟨s, r, hrun, heq⟩ := decompressLz4Chunk_eq context stored size
  rw [heq]
  exact (iterate_rule (I := Sized stored size) (Q := fun _ s' _ => Sized stored size s')
    (fun h hturn => h.turn hturn) (fun h hturn => ⟨h.turn hturn, fun _ _ h => h⟩) sized_start hrun).dst

theorem Progress.turn_error {s s' : lz4.Progress} {e : Fault} (h : s.turn stored = (s', some (.error e))) :
    e.thrown = true := by
  unfold Progress.turn at h
  split_ifs at h
  · rcases hcall : lz4.decompress s.context s.dstBytesLeft (stored.take s.srcBytesLeft) with
      ⟨context, ⟨ret, read⟩ | result⟩
    · rw [hcall] at h
      cases h
      rfl
    · rw [hcall] at h
      cases h
  · cases h
    rfl
  · cases h

theorem decompressLz4Chunk_error {e : Fault} (h : (lz4.decompressLz4Chunk context stored size).2.2 = .error e) :
    e.thrown = true := by
  obtain ⟨s, r, hrun, heq⟩ := decompressLz4Chunk_eq context stored size
  rw [heq] at h
  refine iterate_rule (I := fun _ => True) (Q := fun _ _ r => r = .error e → e.thrown = true) ?_ ?_ trivial hrun h
  · rintro s s' r - hturn rfl
    exact Progress.turn_error hturn
  · exact fun _ _ => ⟨trivial, fun _ _ h => h⟩

/-- A chunk that ends with a frame leaves the context at the end of one. -/
theorem atBoundary_decompressLz4Chunk {AtBoundary : lz4.Context → Prop}
    {IsFrame : Bytes → Bytes → Prop} (hlz4 : lz4.Documented AtBoundary IsFrame)
    (hcontext : AtBoundary context) (hends : EndsWithFrame IsFrame stored size) :
    AtBoundary (lz4.decompressLz4Chunk context stored size).1 := by
  obtain ⟨s, r, hrun, heq⟩ := decompressLz4Chunk_eq context stored size
  rw [heq]
  have hidle : stored = [] ∨ size = 0 → AtBoundary s.context := by
    intro hempty
    refine iterate_rule (I := fun s => AtBoundary s.context ∧ (s.dstBytesLeft = 0 ∨ s.srcBytesLeft = 0))
      (Q := fun _ s' _ => AtBoundary s'.context) ?_ ?_ ⟨hcontext, ?_⟩ hrun
    · rintro s s' r ⟨hboundary, hleft⟩ hturn
      rcases turn_cases hturn with ⟨hdst, hsrc, -⟩ | ⟨-, rfl, -⟩
      · omega
      · exact hboundary
    · rintro s s' ⟨hboundary, hleft⟩ hturn
      rcases turn_cases hturn with ⟨hdst, hsrc, -⟩ | ⟨-, -, hr⟩
      · omega
      · exact absurd rfl hr
    · rcases hempty with rfl | rfl
      · exact .inr rfl
      · exact .inl rfl
  rcases hends with hempty | hzero | ⟨frame, content, k, hframe, hfront, hsrc, hdst, hend⟩
  · exact hidle (.inl hempty)
  · exact hidle (.inr hzero)
  · refine iterate_rule
      (I := fun s => ∃ j ≤ k, AfterFrames AtBoundary stored frame content size j s)
      (Q := fun _ s' _ => AtBoundary s'.context) ?_ ?_ ⟨0, Nat.zero_le k, hcontext, ?_, ?_⟩ hrun
    · rintro s s' r ⟨j, hj, h⟩ hturn
      rcases h.turn hlz4 hframe hfront hsrc hdst hend hj hturn with ⟨-, hboundary⟩ | ⟨hr, -⟩
      · exact hboundary
      · cases hr
    · rintro s s' ⟨j, hj, h⟩ hturn
      rcases h.turn hlz4 hframe hfront hsrc hdst hend hj hturn with ⟨hr, -⟩ | ⟨-, hj', h'⟩
      · exact absurd rfl hr
      · exact ⟨⟨j + 1, hj', h'⟩, fun _ _ h => h⟩
    · simp [Progress.start]
    · simp [Progress.start]

end Chunk

section Chunks

variable {AtBoundary : lz4.Context → Prop} {IsFrame : Bytes → Bytes → Prop}

theorem contextAfter_append (chunks : List (Bytes × ℕ)) (chunk : Bytes × ℕ) :
    lz4.contextAfter (chunks ++ [chunk]) =
      (lz4.decompressLz4Chunk (lz4.contextAfter chunks) chunk.1 chunk.2).1 := by
  rw [contextAfter, List.foldl_append]
  rfl

theorem atBoundary_contextAfter (hlz4 : lz4.Documented AtBoundary IsFrame)
    {chunks : List (Bytes × ℕ)} (h : ∀ chunk ∈ chunks, EndsWithFrame IsFrame chunk.1 chunk.2) :
    AtBoundary (lz4.contextAfter chunks) := by
  induction chunks using List.reverseRecOn with
  | nil => exact hlz4.created
  | append_singleton chunks chunk ih =>
    rw [contextAfter_append]
    exact atBoundary_decompressLz4Chunk hlz4
      (ih fun c hc => h c (List.mem_append_left _ hc)) (h chunk (by simp))

/-- At the end of a frame a context is as good as a new one. -/
theorem decompressLz4Chunk_of_atBoundary (hlz4 : lz4.Documented AtBoundary IsFrame)
    {context : lz4.Context} (h : AtBoundary context) (stored : Bytes) (size : ℕ) :
    (lz4.decompressLz4Chunk context stored size).2 =
      (lz4.decompressLz4Chunk lz4.created stored size).2 := by
  unfold decompressLz4Chunk iterate Progress.turn
  simp only [hlz4.reusable h]
  split_ifs
  · rcases lz4.decompress lz4.created size (stored.take stored.length) with ⟨c, ⟨ret, read⟩ | r⟩
    · rfl
    · rfl
  · rfl
  · rfl

/-- Each chunk is decompressed as with a new context, whatever chunks came before, as long as
those ended with a frame. -/
theorem independent_of_endsWithFrame (hlz4 : lz4.Documented AtBoundary IsFrame)
    {chunks : List (Bytes × ℕ)} (h : ∀ chunk ∈ chunks, EndsWithFrame IsFrame chunk.1 chunk.2) :
    AtBoundary (lz4.contextAfter chunks) ∧ ∀ stored size,
      (lz4.decompressLz4Chunk (lz4.contextAfter chunks) stored size).2 =
        (lz4.decompressLz4Chunk lz4.created stored size).2 :=
  have hboundary := atBoundary_contextAfter hlz4 h
  ⟨hboundary, decompressLz4Chunk_of_atBoundary hlz4 hboundary⟩

/-- The codecs of a view, with a context for every chunk that no other chunk has used. -/
def codecs (lz4 : Lz4f) (bz2 : Bytes → ℕ → Bytes × Except Fault Unit)
    (hbz2 : ∀ stored size, (bz2 stored size).1.length = size) : Codecs where
  lz4 stored size := (lz4.decompressLz4Chunk lz4.created stored size).2
  bz2 := bz2
  length_lz4 := length_decompressLz4Chunk lz4.created
  length_bz2 := hbz2

end Chunks

end Lz4f

/-- `BZ2_bzBuffToBuffDecompress`, by its source and the room in the destination: its return code
and what it has put into the destination, whose length it reports. -/
structure Bz2 where
  decompress : Bytes → ℕ → ℤ × Bytes
  produced_le : ∀ src n, (decompress src n).2.length ≤ n

/-- `decompressBz2Chunk` into a new buffer -/
def Bz2.decompressBz2Chunk (bz2 : Bz2) (stored : Bytes) (size : ℕ) : Bytes × Except Fault Unit :=
  let (r, produced) := bz2.decompress stored size
  let dst := produced ++ (List.replicate size 0).drop produced.length
  if r ≠ 0 then
    (dst, .error (.runtimeError
      (bytes "Failed decompress bz2 chunk, bz2 error code: " ++ bytes (toString r))))
  else (dst, .ok ())

theorem Bz2.length_decompressBz2Chunk (bz2 : Bz2) (stored : Bytes) (size : ℕ) :
    (bz2.decompressBz2Chunk stored size).1.length = size := by
  have hle := bz2.produced_le stored size
  unfold decompressBz2Chunk
  rcases h : bz2.decompress stored size with ⟨r, produced⟩
  rw [h] at hle
  simp only at hle
  have hlength : (produced ++ (List.replicate size 0).drop produced.length).length = size := by
    rw [List.length_append, List.length_drop, List.length_replicate]
    omega
  dsimp only
  split_ifs <;> exact hlength

theorem Bz2.decompressBz2Chunk_error {bz2 : Bz2} {stored : Bytes} {size : ℕ} {e : Fault}
    (h : (bz2.decompressBz2Chunk stored size).2 = .error e) : e.thrown = true := by
  unfold decompressBz2Chunk at h
  dsimp only at h
  split_ifs at h
  · cases h
    rfl

section Sample

def sampleMagic : Bytes := [0x04, 0x22, 0x4d, 0x18, 0x60, 0x40, 0x82]

/-- A frame without options, with its content in one block that is not compressed. -/
def sampleFrame (content : Bytes) : Bytes :=
  sampleMagic ++ (le 4 (2 ^ 31 + content.length) ++ (content ++ le 4 0))

def sampleContent (bs : Bytes) : Bytes :=
  (bs.drop 11).take (ofLE ((bs.drop 7).take 4) - 2 ^ 31)

/-- `LZ4F_decompress` for these frames, with the bytes of the frame it is within for a context
and how much of the content it has given; there is none after an error. -/
def sampleDecompress (context : Option (Bytes × ℕ)) (n : ℕ) (src : Bytes) :
    Option (Bytes × ℕ) × Except (ℕ × ℕ) Lz4Result :=
  match context with
  | none => (none, .error (2 ^ 64 - 1, 0))
  | some (fed, given) =>
    let frame := sampleFrame (sampleContent (fed ++ src))
    let out := (sampleContent (fed ++ src)).drop given
    if frame <+: fed ++ src ∧ fed.length < frame.length then
      if out.length ≤ n then
        (some ([], 0), .ok { written := out, read := frame.length - fed.length, hint := 0 })
      else
        let read := frame.length - 1 - fed.length
        (some (fed ++ src.take read, given + n), .ok { written := out.take n, read, hint := 1 })
    else if sampleMagic <+: fed ++ src ∨ fed ++ src <+: sampleMagic then
      (some (fed ++ src, given), .ok { written := [], read := src.length, hint := 1 })
    else (none, .error (2 ^ 64 - 13, 0))

theorem sampleDecompress_cases {context context' : Option (Bytes × ℕ)} {n : ℕ} {src : Bytes}
    {r : Lz4Result} (h : sampleDecompress context n src = (context', .ok r)) :
    r.written.length ≤ n ∧ r.read ≤ src.length ∧
      (context' = some ([], 0) ∧ r.hint = 0 ∧ 0 < r.read ∨
        r.hint = 1 ∧ (0 < n → src ≠ [] →
          context' ≠ some ([], 0) ∧ (0 < r.read ∨ 0 < r.written.length))) := by
  rcases context with _ | ⟨fed, given⟩
  · cases h
  unfold sampleDecompress at h
  dsimp only at h
  split_ifs at h with hframe hroom
  · cases h
    have hlength := hframe.1.length_le
    rw [List.length_append] at hlength
    exact ⟨hroom, by simp only; omega, .inl ⟨rfl, rfl, by simp only; omega⟩⟩
  · cases h
    have hlength := hframe.1.length_le
    rw [List.length_append] at hlength
    refine ⟨List.length_take_le _ _, by simp only; omega, .inr ⟨rfl, fun hn _ => ⟨?_, .inr ?_⟩⟩⟩
    · intro heq
      have hgiven := (Prod.mk.inj (Option.some.inj heq)).2
      omega
    · rw [List.length_take]
      omega
  · cases h
    refine ⟨Nat.zero_le _, le_rfl, .inr ⟨rfl, fun _ hsrc => ⟨?_, .inl (List.length_pos_iff.2 hsrc)⟩⟩⟩
    intro heq
    exact hsrc (List.append_eq_nil_iff.1 (Prod.mk.inj (Option.some.inj heq)).1).2
  · cases (Prod.mk.inj h).2

def sampleLz4f : Lz4f where
  Context := Option (Bytes × ℕ)
  created := some ([], 0)
  decompress := sampleDecompress
  written_le h := (sampleDecompress_cases h).1
  read_le h := (sampleDecompress_cases h).2.1
  advances hn hsrc h := by
    obtain ⟨-, -, ⟨-, -, hlt⟩ | ⟨-, hmore⟩⟩ := sampleDecompress_cases h
    · exact .inl hlt
    · exact (hmore hn hsrc).2

def IsSampleFrame (frame content : Bytes) : Prop :=
  frame = sampleFrame content ∧ content.length < 2 ^ 31

/-- `BZ2_bzBuffToBuffDecompress` for what is no bzip2 stream: `BZ_DATA_ERROR_MAGIC` -/
def foreignBz2 : Bz2 where
  decompress _ _ := (-5, [])
  produced_le _ _ := Nat.zero_le _

theorem sampleContent_of_prefix {content src : Bytes} (hlength : content.length < 2 ^ 31)
    (h : sampleFrame content <+: src) : sampleContent src = content := by
  obtain ⟨t, rfl⟩ := h
  have hsize : ((sampleFrame content ++ t).drop 7).take 4 = le 4 (2 ^ 31 + content.length) := by
    rw [sampleFrame, List.append_assoc, List.drop_left' (show sampleMagic.length = 7 from rfl),
      List.append_assoc, List.take_left' (length_le _ _)]
  have hcontent : (sampleFrame content ++ t).drop 11 = content ++ (le 4 0 ++ t) := by
    rw [sampleFrame, ← List.append_assoc, List.append_assoc, List.drop_left', List.append_assoc]
    rw [List.length_append, length_le]
    rfl
  rw [sampleContent, hsize, hcontent, ofLE_le (by norm_num; omega), Nat.add_sub_cancel_left,
    List.take_left]

theorem documented_sampleLz4f :
    sampleLz4f.Documented (fun context => context = some ([], 0)) IsSampleFrame where
  created := rfl
  reusable h := by subst h; rfl
  decoded hn hsrc h := by
    obtain ⟨-, -, ⟨rfl, hhint, -⟩ | ⟨hhint, hmore⟩⟩ := sampleDecompress_cases h
    · exact iff_of_true rfl hhint
    · exact iff_of_false (hmore hn hsrc).1 (by omega)
  failed {c n src c' e} h := by
    rintro rfl
    change sampleDecompress c n src = _ at h
    rcases c with _ | ⟨fed, given⟩
    · cases h
    · unfold sampleDecompress at h
      dsimp only at h
      split_ifs at h <;> cases (Prod.mk.inj h).2
      cases (Prod.mk.inj h).1
  frame {c n src frame content} h hframe hfront hn := by
    obtain ⟨rfl, hlength⟩ := hframe
    subst h
    have hcontent := sampleContent_of_prefix hlength hfront
    change (sampleDecompress (some ([], 0)) n src).2 = _
    unfold sampleDecompress
    dsimp only
    rw [List.nil_append, hcontent, List.drop_zero, if_pos ⟨hfront, Nat.zero_lt_succ _⟩, if_pos hn]
    rfl
  nonempty h := by
    rw [h.1]
    exact nofun

theorem endsWithFrame_sample (content rest : Bytes) (hlength : content.length < 2 ^ 31) :
    Lz4f.EndsWithFrame IsSampleFrame (sampleFrame content ++ rest) content.length := by
  refine .inr (.inr ⟨sampleFrame content, content, 1, ⟨rfl, hlength⟩, List.prefix_append _ _, ?_⟩)
  rw [Nat.one_mul, Nat.one_mul, List.length_append]
  exact ⟨Nat.le_add_right _ _, le_rfl, .inr rfl⟩

/-- A whole frame, and one with a byte behind it, which is left over and makes the chunk throw. -/
theorem independent_sample :
    (sampleLz4f.decompressLz4Chunk
        (sampleLz4f.contextAfter [(sampleFrame [1, 2], 2), (sampleFrame [3] ++ [0], 1)])
        (sampleFrame [4, 5]) 2).2 =
      (sampleLz4f.decompressLz4Chunk sampleLz4f.created (sampleFrame [4, 5]) 2).2 :=
  (sampleLz4f.independent_of_endsWithFrame documented_sampleLz4f (by
    rintro chunk hchunk
    simp only [List.mem_cons, List.not_mem_nil, or_false] at hchunk
    rcases hchunk with rfl | rfl
    · rw [← List.append_nil (sampleFrame [1, 2])]
      exact endsWithFrame_sample [1, 2] [] (by decide)
    · exact endsWithFrame_sample [3] [0] (by decide))).2 _ _

/-- A frame that was cut off within its first bytes leaves the context within it. -/
theorem not_independent_sample :
    ¬ ∀ chunks content, (sampleLz4f.decompressLz4Chunk (sampleLz4f.contextAfter chunks)
        (sampleFrame content) content.length).2 =
      (sampleLz4f.decompressLz4Chunk sampleLz4f.created (sampleFrame content) content.length).2 := by
  intro h
  exact absurd (h [(sampleMagic.take 5, 2)] [4, 5]) (by decide +kernel)

end Sample

end Embag
