import Embag.BagRecords
import Embag.Lz4Progress

/-! The declared size of a chunk against what its payload decodes to, for each of the codecs.
The sizes are compared for LZ4 only; a copy trusts the declared one, and what bzip2 says it has
produced is not looked at. -/

namespace Embag

open LittleEndian Loops

/-- `LZ4F_decompress` decodes a whole frame in one call. Where the destination has no room for its
content, the call fails or fills the destination, and does not use the frame up. What it does with
bytes that begin with no whole frame is left open. -/
structure Lz4f.DecodesFrames (lz4 : Lz4f) (AtBoundary : lz4.Context → Prop)
    (IsFrame : Bytes → Bytes → Prop) : Prop extends lz4.Documented AtBoundary IsFrame where
  short : ∀ {c n src frame content c' r}, AtBoundary c → IsFrame frame content → frame <+: src →
    n < content.length → lz4.decompress c n src = (c', .ok r) →
      r.written.length = n ∧ r.read < frame.length

/-- With `BZ_OK` the payload is decoded, and it is decoded where there is room for it. -/
structure Bz2.Documented (bz2 : Bz2) (Decodes : Bytes → Bytes → Prop) : Prop where
  decoded : ∀ {src n}, (bz2.decompress src n).1 = 0 → Decodes src (bz2.decompress src n).2
  fits : ∀ {src content n}, Decodes src content → content.length ≤ n →
    bz2.decompress src n = (0, content)

namespace Lz4f

section Frames

variable {lz4 : Lz4f} {AtBoundary : lz4.Context → Prop} {IsFrame : Bytes → Bytes → Prop}
  {stored frame content : Bytes} {size j : ℕ} {s s' : lz4.Progress}

/-- The loop after the frame at the front has been decoded `j` times over. -/
structure Repeats (AtBoundary : lz4.Context → Prop) (stored frame content : Bytes) (size j : ℕ)
    (s : lz4.Progress) : Prop where
  after : AfterFrames AtBoundary stored frame content size j s
  src_le : j * frame.length ≤ stored.length
  dst_le : j * content.length ≤ size
  dst : s.dst = if j = 0 then List.replicate size 0
    else content ++ (List.replicate size 0).drop content.length

theorem Repeats.start {context : lz4.Context} (h : AtBoundary context) :
    Repeats AtBoundary stored frame content size 0 (Progress.start context stored size) :=
  ⟨⟨h, by simp [Progress.start], by simp [Progress.start]⟩, by simp, by simp, rfl⟩

theorem Repeats.turn_of_room (hlz4 : lz4.Documented AtBoundary IsFrame) (hframe : IsFrame frame content)
    (hfront : frame <+: stored) (h : Repeats AtBoundary stored frame content size j s)
    (hdst : s.dstBytesLeft ≠ 0) (hsrcRoom : frame.length ≤ s.srcBytesLeft)
    (hdstRoom : content.length ≤ s.dstBytesLeft) :
    ∃ s', s.turn stored = (s', none) ∧ Repeats AtBoundary stored frame content size (j + 1) s' := by
  have hpos := List.length_pos_iff.2 (hlz4.nonempty hframe)
  obtain ⟨⟨hboundary, hsrcLeft, hdstLeft⟩, hsrc_le, hdst_le, hdstEq⟩ := h
  have hprefix : frame <+: stored.take s.srcBytesLeft := List.prefix_take_iff.2 ⟨hfront, hsrcRoom⟩
  have hok := hlz4.frame (n := s.dstBytesLeft) hboundary hframe hprefix hdstRoom
  rcases hcall : lz4.decompress s.context s.dstBytesLeft (stored.take s.srcBytesLeft) with ⟨context, r⟩
  rw [hcall] at hok
  simp only at hok
  rw [hok] at hcall
  have hnext : AtBoundary context := (hlz4.decoded (by omega) (fun hnil => by
    rw [hnil] at hprefix
    exact hlz4.nonempty hframe (List.prefix_nil.1 hprefix)) hcall).2 rfl
  refine ⟨_, turn_of_ok hdst (by omega) hcall, ⟨hnext, ?_, ?_⟩, ?_, ?_, ?_⟩
  · rw [Nat.succ_mul, ← Nat.sub_sub, ← hsrcLeft]
  · rw [Nat.succ_mul, ← Nat.sub_sub, ← hdstLeft]
  · rw [Nat.succ_mul]
    omega
  · rw [Nat.succ_mul]
    omega
  · rw [if_neg (Nat.succ_ne_zero j), hdstEq]
    split_ifs
    · rfl
    · rw [List.drop_left]

theorem Repeats.rest_eq (h : Repeats AtBoundary stored frame content size j s)
    (hlt : s.srcBytesLeft < frame.length) :
    stored.length / frame.length = j ∧ stored.length % frame.length = s.srcBytesLeft := by
  have hsrcLeft := h.after.2.1
  have hlength : stored.length = s.srcBytesLeft + frame.length * j := by
    rw [Nat.mul_comm]
    have := h.src_le
    omega
  have hpos : 0 < frame.length := by omega
  rw [hlength, Nat.add_mul_div_left _ _ hpos, Nat.div_eq_of_lt hlt, Nat.add_mul_mod_self_left,
    Nat.mod_eq_of_lt hlt]
  exact ⟨Nat.zero_add j, rfl⟩

/-- A turn throws, is the last one, decodes the frame once more or has no room for it, where no part
of a frame is left. -/
theorem Repeats.turn_cases (hlz4 : lz4.DecodesFrames AtBoundary IsFrame) (hframe : IsFrame frame content)
    (hfront : frame <+: stored)
    (hpart : stored.length % frame.length ≠ 0 → size ≤ stored.length / frame.length * content.length)
    (h : Repeats AtBoundary stored frame content size j s) :
    (∃ s' e, s.turn stored = (s', some (.error e)) ∧ e.thrown = true) ∨
      (s.turn stored = (s, some (.ok ())) ∧ stored.length = j * frame.length ∧ size = j * content.length) ∨
      ∃ s', s.turn stored = (s', none) ∧ (Repeats AtBoundary stored frame content size (j + 1) s' ∨
        s'.dstBytesLeft = 0 ∧ s'.srcBytesLeft ≠ 0) := by
  have hsrc_le := h.src_le
  have hdst_le := h.dst_le
  have hsrcLeft := h.after.2.1
  have hdstLeft := h.after.2.2
  by_cases hused : s.dstBytesLeft = 0 ∨ s.srcBytesLeft = 0
  · rcases turn_of_used stored hused with ⟨hturn, hdst, hsrc⟩ | ⟨e, hturn, he⟩
    · exact .inr (.inl ⟨hturn, by omega, by omega⟩)
    · exact .inl ⟨s, e, hturn, he⟩
  obtain ⟨hdst, hsrc⟩ := not_or.1 hused
  have hsrcRoom : frame.length ≤ s.srcBytesLeft := by
    by_contra hlt
    obtain ⟨hdiv, hmod⟩ := h.rest_eq (Nat.lt_of_not_le hlt)
    have hsize := hpart (hmod ▸ hsrc)
    rw [hdiv] at hsize
    omega
  rcases hcall : lz4.decompress s.context s.dstBytesLeft (stored.take s.srcBytesLeft) with ⟨context, code | r⟩
  · exact .inl (turn_of_error hdst hsrc hcall)
  by_cases hroom : content.length ≤ s.dstBytesLeft
  · obtain ⟨s', hturn, hnext⟩ := h.turn_of_room hlz4.toDocumented hframe hfront hdst hsrcRoom hroom
    exact .inr (.inr ⟨s', hturn, .inl hnext⟩)
  · obtain ⟨hwritten, hread⟩ := hlz4.short h.after.1 hframe (List.prefix_take_iff.2 ⟨hfront, hsrcRoom⟩)
      (Nat.lt_of_not_le hroom) hcall
    refine .inr (.inr ⟨_, turn_of_ok hdst hsrc hcall, .inr ⟨?_, ?_⟩⟩)
    · simp only [hwritten, Nat.sub_self]
    · simp only
      omega

end Frames

section Part

variable {lz4 : Lz4f} {AtBoundary : lz4.Context → Prop} {IsFrame : Bytes → Bytes → Prop} {part : Bytes} {room : ℕ}

end Part

end Lz4f

/-! ### Every codec -/

section Codecs

variable {lz4 : Lz4f} {bz2 : Bz2} {AtBoundary : lz4.Context → Prop} {IsFrame BzDecodes : Bytes → Bytes → Prop}
  {pre stored post : Bytes}

end Codecs

section Sample

end Sample

end Embag
