import Embag.BagRecords

/-! The reader that makes a map of header fields, on any block of bytes. It believes every
length and compares its position with the end only between two fields. -/

namespace Embag

open LittleEndian

def encodeRaw (raw : Bytes) : Bytes := le 4 raw.length ++ raw

def encodeRaws (raws : List Bytes) : Bytes := raws.flatMap encodeRaw

/-- The name of a field and its value: what is in front of the first `=`, and behind it. -/
def fieldOf (raw : Bytes) : Field :=
  (raw.takeWhile (· != '='.toUInt8), (raw.dropWhile (· != '='.toUInt8)).drop 1)

def lastValue (name : Bytes) : List Field → Option Bytes
  | [] => none
  | f :: fs => (lastValue name fs).or (if f.1 = name then some f.2 else none)

/-- The block is a concatenation of fields with a `=` in each. -/
structure IsBlock (raws : List Bytes) (block : Bytes) : Prop where
  block_eq : block = encodeRaws raws
  fits : ∀ raw ∈ raws, raw.length < 2 ^ 32
  separated : ∀ raw ∈ raws, '='.toUInt8 ∈ raw

/-- What is thrown for a field without a `=`. -/
def missingSeparator : Fault :=
  .runtimeError (bytes "Unable to find '=' in header field - perhaps this bag is corrupt...")

theorem lookup_foldl_insert_eq (name : Bytes) (fs : List Field) (map : Header) :
    (fs.foldl (fun map f => map.insert f.1 f.2) map).lookup name =
      (lastValue name fs).or (map.lookup name) := by
  induction fs generalizing map with
  | nil => rfl
  | cons f fs ih =>
    rw [List.foldl_cons, ih, lastValue, Option.or_assoc]
    by_cases hname : f.1 = name
    · rw [if_pos hname, ← hname, AList.lookup_insert, Option.some_or]
    · rw [if_neg hname, AList.lookup_insert_ne (Ne.symm hname), Option.none_or]

theorem fieldOf_append {name value : Bytes} (h : 61 ∉ name) : fieldOf (name ++ 61 :: value) = (name, value) := by
  have hne : ∀ c ∈ name, (c != '='.toUInt8) = true := by
    intro c hc
    refine bne_iff_ne.2 fun he => h ?_
    rw [← show c = 61 from he]
    exact hc
  unfold fieldOf
  rw [List.takeWhile_append_of_pos hne, List.dropWhile_append_of_pos hne,
    List.takeWhile_cons_of_neg (by decide), List.dropWhile_cons_of_neg (by decide), List.append_nil]
  rfl

theorem length_encodeRaw (raw : Bytes) : (encodeRaw raw).length = 4 + raw.length := by
  rw [encodeRaw, List.length_append, length_le]

theorem le_ofLE (bs : Bytes) : le bs.length (ofLE bs) = bs := by
  induction bs with
  | nil => rfl
  | cons b bs ih =>
    have hb : b.toNat < 256 := b.toNat_lt
    have hmod : (b.toNat + 256 * ofLE bs) % 256 = b.toNat := by omega
    have hdiv : (b.toNat + 256 * ofLE bs) / 256 = ofLE bs := by omega
    rw [List.length_cons, ofLE, le, hmod, hdiv, ih, UInt8.ofNat_toNat]

/-- A block starts with a field, or the length at its front leads out of it. -/
theorem exists_raw_or_short (block : Bytes) :
    (∃ raw rest, block = encodeRaw raw ++ rest ∧ raw.length < 2 ^ 32) ∨ block.length < 4 ∨
      4 ≤ block.length ∧ block.length < 4 + ofLE (block.take 4) := by
  rcases Nat.lt_or_ge block.length 4 with hshort | hlong
  · exact .inr (.inl hshort)
  rcases Nat.lt_or_ge block.length (4 + ofLE (block.take 4)) with hover | hinside
  · exact .inr (.inr ⟨hlong, hover⟩)
  · have htake : (block.take 4).length = 4 := List.length_take_of_le hlong
    have hraw : ((block.drop 4).take (ofLE (block.take 4))).length = ofLE (block.take 4) := by
      rw [List.length_take_of_le]
      rw [List.length_drop]
      omega
    refine .inl ⟨(block.drop 4).take (ofLE (block.take 4)), (block.drop 4).drop (ofLE (block.take 4)), ?_, ?_⟩
    · have hword := le_ofLE (block.take 4)
      rw [htake] at hword
      rw [encodeRaw, hraw, hword, List.append_assoc, List.take_append_drop, List.take_append_drop]
    · have hlt := ofLE_lt (block.take 4)
      rw [htake] at hlt
      rw [hraw]
      exact hlt

/-- No length leads out of the block, up to the first field without a `=`. -/
inductive LengthsInside : Bytes → Prop
  | nil : LengthsInside []
  | missing {raw rest : Bytes} (fits : raw.length < 2 ^ 32) (h : '='.toUInt8 ∉ raw) :
    LengthsInside (encodeRaw raw ++ rest)
  | field {raw rest : Bytes} (fits : raw.length < 2 ^ 32) (h : '='.toUInt8 ∈ raw)
    (hrest : LengthsInside rest) : LengthsInside (encodeRaw raw ++ rest)

section Front

variable {raws : List Bytes} {raw block : Bytes}

theorem isBlock_nil : IsBlock [] (encodeRaws []) := by
  refine ⟨rfl, ?_, ?_⟩ <;> simp

theorem IsBlock.cons (hfits : raw.length < 2 ^ 32) (h : '='.toUInt8 ∈ raw)
    (hraws : IsBlock raws (encodeRaws raws)) : IsBlock (raw :: raws) (encodeRaws (raw :: raws)) :=
  ⟨rfl, List.forall_mem_cons.2 ⟨hfits, hraws.fits⟩, List.forall_mem_cons.2 ⟨h, hraws.separated⟩⟩

theorem LengthsInside.exists_raws (h : LengthsInside block) :
    ∃ raws, IsBlock raws (encodeRaws raws) ∧ (block = encodeRaws raws ∨
      ∃ raw rest, raw.length < 2 ^ 32 ∧ '='.toUInt8 ∉ raw ∧
        block = encodeRaws raws ++ (encodeRaw raw ++ rest)) := by
  induction h with
  | nil => exact ⟨[], isBlock_nil, .inl rfl⟩
  | @missing raw rest hfits h => exact ⟨[], isBlock_nil, .inr ⟨raw, rest, hfits, h, rfl⟩⟩
  | @field raw rest hfits h _ ih =>
    obtain ⟨raws, hraws, rfl | ⟨raw', rest', hfits', h', rfl⟩⟩ := ih
    · exact ⟨raw :: raws, hraws.cons hfits h, .inl rfl⟩
    · refine ⟨raw :: raws, hraws.cons hfits h, .inr ⟨raw', rest', hfits', h', ?_⟩⟩
      rw [← List.append_assoc]
      rfl

theorem exists_raws_of_not (block : Bytes) (h : ¬ LengthsInside block) :
    ∃ raws rest, IsBlock raws (encodeRaws raws) ∧ block = encodeRaws raws ++ rest ∧ rest ≠ [] ∧
      (rest.length < 4 ∨ 4 ≤ rest.length ∧ rest.length < 4 + ofLE (rest.take 4)) := by
  rcases exists_raw_or_short block with ⟨raw, rest, hblock, hfits⟩ | hshort
  · have hlength := length_encodeRaw raw
    have hlt : rest.length < block.length := by
      rw [hblock, List.length_append]
      omega
    rw [hblock] at h
    by_cases hmem : '='.toUInt8 ∈ raw
    · obtain ⟨raws, rest', hraws, hrest, hne, hover⟩ :=
        exists_raws_of_not rest fun hrest => h (.field hfits hmem hrest)
      refine ⟨raw :: raws, rest', hraws.cons hfits hmem, ?_, hne, hover⟩
      rw [hblock, hrest, ← List.append_assoc]
      rfl
    · exact absurd (.missing hfits hmem) h
  · refine ⟨[], block, isBlock_nil, rfl, ?_, hshort⟩
    intro hnil
    rw [hnil] at h
    exact h .nil
termination_by block.length

end Front

theorem length_le_encodeRaws (raws : List Bytes) : raws.length ≤ (encodeRaws raws).length := by
  induction raws with
  | nil => exact Nat.zero_le _
  | cons raw raws ih =>
    have hlength := length_encodeRaw raw
    have henc : encodeRaws (raw :: raws) = encodeRaw raw ++ encodeRaws raws := rfl
    rw [henc, List.length_append, List.length_cons]
    omega

section Loop

variable {memory : Bytes} {finish : ℤ} {fuel p : ℕ} {map : Header} {raw : Bytes}

theorem fieldsLoop_raw (hfinish : (p : ℤ) < finish) (hfits : raw.length < 2 ^ 32)
    (h : OccursAt (encodeRaw raw) memory p) :
    Bag.fieldsLoop memory finish (fuel + 1) p map =
      if '='.toUInt8 ∈ raw then
        Bag.fieldsLoop memory finish fuel ((p + (encodeRaw raw).length : ℕ) : ℤ)
          (map.insert (fieldOf raw).1 (fieldOf raw).2)
      else .error missingSeparator := by
  have hlen := readPointer_of_occursAt h.left
  have hright := h.right
  rw [length_le] at hlen hright
  have hbuffer := readPointer_of_occursAt hright
  have hword : ofLE (le 4 raw.length) = raw.length := ofLE_le (by norm_num; omega)
  rw [Bag.fieldsLoop, if_pos hfinish]
  simp only [hlen, ok_bind, hword]
  rw [show (p : ℤ) + 4 = ((p + 4 : ℕ) : ℤ) by push_cast; rfl, hbuffer, ok_bind]
  split_ifs with hmem
  · have hcons : raw.dropWhile (· != '='.toUInt8) ≠ [] := by
      intro hnil
      exact bne_iff_ne.1 (List.dropWhile_eq_nil_iff.1 hnil _ hmem) rfl
    obtain ⟨c, value, hdrop⟩ := List.exists_cons_of_ne_nil hcons
    rw [fieldOf, length_encodeRaw, hdrop, List.drop_one, List.tail_cons]
    simp only
    congr 1
    push_cast
    ring
  · have hnone : raw.dropWhile (· != '='.toUInt8) = [] := by
      rw [List.dropWhile_eq_nil_iff]
      intro c hc
      exact bne_iff_ne.2 fun he => hmem (he ▸ hc)
    rw [hnone]
    rfl

theorem fieldsLoop_raws {raws : List Bytes} {rest : Bytes} (hraws : IsBlock raws (encodeRaws raws))
    (hfinish : ((p + (encodeRaws raws).length : ℕ) : ℤ) ≤ finish)
    (h : OccursAt (encodeRaws raws ++ rest) memory p) :
    Bag.fieldsLoop memory finish (raws.length + fuel) p map =
      Bag.fieldsLoop memory finish fuel ((p + (encodeRaws raws).length : ℕ) : ℤ)
        ((raws.map fieldOf).foldl (fun map f => map.insert f.1 f.2) map) := by
  obtain ⟨-, hfits, hseparated⟩ := hraws
  induction raws generalizing p map with
  | nil => simp [encodeRaws]
  | cons raw raws ih =>
    rw [List.forall_mem_cons] at hfits hseparated
    have henc : encodeRaws (raw :: raws) = encodeRaw raw ++ encodeRaws raws := rfl
    have hlength := length_encodeRaw raw
    rw [henc, List.append_assoc] at h
    rw [henc, List.length_append, ← Nat.add_assoc] at hfinish ⊢
    rw [List.length_cons, Nat.add_right_comm,
      fieldsLoop_raw (by omega) hfits.1 h.left, if_pos hseparated.1,
      ih hfinish h.right hfits.2 hseparated.2]
    rfl

theorem fieldsLoop_end {k : ℕ} {map : Header} (hfinish : finish ≤ p) :
    Bag.fieldsLoop memory finish k p map = .ok map := by
  cases k <;> rw [Bag.fieldsLoop, if_neg (by omega)]

end Loop

section Block

variable {raws : List Bytes} {raw rest block memory : Bytes} {p : ℕ}

theorem readFields_of_isBlock (hraws : IsBlock raws block) (h : OccursAt block memory p) :
    Bag.readFields memory p block.length =
      .ok ((raws.map fieldOf).foldl (fun map f => map.insert f.1 f.2) ∅) := by
  obtain rfl := hraws.block_eq
  obtain ⟨fuel, hfuel⟩ := Nat.exists_eq_add_of_le (length_le_encodeRaws raws)
  rw [← List.append_nil (encodeRaws raws)] at h
  have hloop : Bag.fieldsLoop memory ((p + (encodeRaws raws).length : ℕ) : ℤ) (raws.length + fuel) p ∅ = _ :=
    fieldsLoop_raws hraws le_rfl h
  rw [← hfuel, fieldsLoop_end le_rfl] at hloop
  exact hloop

theorem readFields_of_missing (hraws : IsBlock raws (encodeRaws raws)) (hfits : raw.length < 2 ^ 32)
    (hmissing : '='.toUInt8 ∉ raw) (hblock : block = encodeRaws raws ++ (encodeRaw raw ++ rest))
    (h : OccursAt block memory p) :
    Bag.readFields memory p block.length = .error missingSeparator := by
  have hlength := length_encodeRaw raw
  have hle := length_le_encodeRaws raws
  have hblockLength : block.length = (encodeRaws raws).length + ((encodeRaw raw).length + rest.length) := by
    rw [hblock, List.length_append, List.length_append]
  obtain ⟨fuel, hfuel⟩ : ∃ fuel, block.length = raws.length + (fuel + 1) :=
    ⟨block.length - raws.length - 1, by omega⟩
  rw [hblock] at h
  rw [Bag.readFields, hfuel, fieldsLoop_raws hraws (by omega) h,
    fieldsLoop_raw (by omega) hfits h.right.left, if_neg hmissing]

theorem readPointer_over {n : ℕ} (h : memory.length < p + n) :
    readPointer memory p n = .error .undefined := by
  rw [readPointer, if_neg (by omega), Int.toNat_natCast, readRaw, sliceAt, if_neg (by omega)]

/-- Bytes that are too few for a field are read beyond the end of the memory. -/
theorem fieldsLoop_over {finish : ℤ} {fuel : ℕ} {front : Bytes} {map : Header}
    (hfinish : (front.length : ℤ) < finish)
    (hover : rest.length < 4 ∨ 4 ≤ rest.length ∧ rest.length < 4 + ofLE (rest.take 4)) :
    Bag.fieldsLoop (front ++ rest) finish (fuel + 1) front.length map = .error .undefined := by
  have hlength : (front ++ rest).length = front.length + rest.length := List.length_append
  rw [Bag.fieldsLoop, if_pos hfinish]
  rcases hover with hshort | ⟨hlong, hover⟩
  · rw [readPointer_over (by omega)]
    rfl
  · have hword : OccursAt (rest.take 4) (front ++ rest) front.length := by
      have htake := occursAt_of_append front (rest.take 4) (rest.drop 4)
      rwa [List.append_assoc, List.take_append_drop] at htake
    have hread := readPointer_of_occursAt hword
    rw [List.length_take_of_le hlong] at hread
    simp only [hread, ok_bind]
    rw [show (front.length : ℤ) + 4 = ((front.length + 4 : ℕ) : ℤ) by push_cast; rfl,
      readPointer_over (by omega)]
    rfl

theorem readFields_of_over (hraws : IsBlock raws (encodeRaws raws)) (hrest : rest ≠ [])
    (hblock : block = encodeRaws raws ++ rest)
    (hover : rest.length < 4 ∨ 4 ≤ rest.length ∧ rest.length < 4 + ofLE (rest.take 4)) :
    Bag.readFields block (0 : ℕ) block.length = .error .undefined := by
  have hle := length_le_encodeRaws raws
  have hpos := List.length_pos_iff.2 hrest
  have hlength : block.length = (encodeRaws raws).length + rest.length := by
    rw [hblock, List.length_append]
  have h := occursAt_self block
  obtain ⟨fuel, hfuel⟩ : ∃ fuel, block.length = raws.length + (fuel + 1) :=
    ⟨block.length - raws.length - 1, by omega⟩
  have hfinish : ((0 + (encodeRaws raws).length : ℕ) : ℤ) < ((0 : ℕ) : ℤ) + block.length := by omega
  rw [Bag.readFields]
  rw [hfuel] at hfinish ⊢
  subst hblock
  rw [fieldsLoop_raws hraws hfinish.le h]
  rw [Nat.zero_add] at hfinish ⊢
  exact fieldsLoop_over hfinish hover

end Block

/-- The reader of fields returns exactly on concatenations of fields with a `=`, wherever the
block stands, throws on all others, and looks at nothing but the block. The last field of a
name wins, so that it undoes the writing of fields with different names. -/
structure Bag.AcceptsExactly (pre block post : Bytes) : Prop where
  accepts : (∃ header, readFields (pre ++ block ++ post) pre.length block.length = .ok header) ↔
    ∃ raws, IsBlock raws block
  throws : ∀ e, readFields (pre ++ block ++ post) pre.length block.length = .error e → e.thrown
  reads : readFields (pre ++ block ++ post) pre.length block.length =
    readFields block (0 : ℕ) block.length
  map : ∀ raws header, IsBlock raws block →
    readFields (pre ++ block ++ post) pre.length block.length = .ok header →
    ∀ name, header.lookup name = lastValue name (raws.map fieldOf)
  inverts : ∀ fs : List Field, (fs.map Prod.fst).Nodup → (∀ f ∈ fs, 61 ∉ f.1) →
    (∀ f ∈ fs, f.1.length + 1 + f.2.length < 2 ^ 32) → block = encodeFields fs →
    ∃ header, readFields (pre ++ block ++ post) pre.length block.length = .ok header ∧
      ∀ name value, header.lookup name = some value ↔ (name, value) ∈ fs

section Accepts

variable {fs : List Field} {pre block post : Bytes}

theorem map_fieldOf (hplain : ∀ f ∈ fs, 61 ∉ f.1) :
    (fs.map fun f => f.1 ++ 61 :: f.2).map fieldOf = fs := by
  rw [List.map_map]
  refine (List.map_congr_left fun f hf => ?_).trans (List.map_id fs)
  exact fieldOf_append (hplain f hf)

theorem isBlock_encodeFields (hfits : ∀ f ∈ fs, f.1.length + 1 + f.2.length < 2 ^ 32) :
    IsBlock (fs.map fun f => f.1 ++ 61 :: f.2) (encodeFields fs) := by
  have hlength : ∀ f : Field, (f.1 ++ 61 :: f.2).length = f.1.length + 1 + f.2.length := by
    intro f
    rw [List.length_append, List.length_cons]
    omega
  refine ⟨?_, ?_, ?_⟩
  · rw [encodeRaws, List.flatMap_map]
    refine List.flatMap_congr fun f _ => ?_
    rw [encodeRaw, hlength]
    rfl
  · intro raw hraw
    obtain ⟨f, hf, rfl⟩ := List.mem_map.1 hraw
    rw [hlength]
    exact hfits f hf
  · intro raw hraw
    obtain ⟨f, -, rfl⟩ := List.mem_map.1 hraw
    exact List.mem_append_right _ List.mem_cons_self

theorem lookup_foldl_insert_iff (hnd : (fs.map Prod.fst).Nodup) (name value : Bytes) :
    (fs.foldl (fun map f => map.insert f.1 f.2) (∅ : Header)).lookup name = some value ↔
      (name, value) ∈ fs := by
  constructor
  · intro h
    by_cases hname : name ∈ fs.map Prod.fst
    · obtain ⟨⟨name', value'⟩, hmem, rfl⟩ := List.mem_map.1 hname
      rw [lookup_foldl_insert hnd hmem] at h
      cases h
      exact hmem
    · rw [lookup_foldl_insert_of_notMem hname, AList.lookup_empty] at h
      cases h
  · exact lookup_foldl_insert hnd

theorem Bag.acceptsExactly_of_lengthsInside (h : LengthsInside block) : AcceptsExactly pre block post := by
  have hcontext := occursAt_of_append pre block post
  have halone := occursAt_self block
  have hmap : ∀ raws, IsBlock raws block → ∀ name,
      ((raws.map fieldOf).foldl (fun map f => map.insert f.1 f.2) (∅ : Header)).lookup name =
        lastValue name (raws.map fieldOf) := by
    intro raws _ name
    rw [lookup_foldl_insert_eq, AList.lookup_empty, Option.or_none]
  have hinverts : ∀ fs : List Field, (fs.map Prod.fst).Nodup → (∀ f ∈ fs, 61 ∉ f.1) →
      (∀ f ∈ fs, f.1.length + 1 + f.2.length < 2 ^ 32) → block = encodeFields fs →
      ∃ header, readFields (pre ++ block ++ post) pre.length block.length = .ok header ∧
        ∀ name value, header.lookup name = some value ↔ (name, value) ∈ fs := by
    intro fs hnd hplain hfits hblock
    have hraws := isBlock_encodeFields hfits
    rw [← hblock] at hraws
    have hread := readFields_of_isBlock hraws hcontext
    rw [map_fieldOf hplain] at hread
    exact ⟨_, hread, lookup_foldl_insert_iff hnd⟩
  obtain ⟨raws, hraws, hblock | ⟨raw, rest, hfits, hmissing, hblock⟩⟩ := h.exists_raws
  · rw [← hblock] at hraws
    have hread := readFields_of_isBlock hraws hcontext
    refine ⟨⟨fun _ => ⟨raws, hraws⟩, fun _ => ⟨_, hread⟩⟩, ?_, ?_, ?_, hinverts⟩
    · intro e he
      rw [hread] at he
      cases he
    · rw [hread, readFields_of_isBlock hraws halone]
    · intro raws' header hraws' hheader name
      rw [readFields_of_isBlock hraws' hcontext] at hheader
      cases hheader
      exact hmap raws' hraws' name
  · have hread := readFields_of_missing hraws hfits hmissing hblock hcontext
    refine ⟨⟨?_, ?_⟩, ?_, ?_, ?_, hinverts⟩
    · rintro ⟨header, hheader⟩
      rw [hread] at hheader
      cases hheader
    · rintro ⟨raws', hraws'⟩
      exact ⟨_, readFields_of_isBlock hraws' hcontext⟩
    · intro e he
      rw [hread] at he
      cases he
      rfl
    · rw [hread, readFields_of_missing hraws hfits hmissing hblock halone]
    · intro raws' header hraws' hheader
      rw [hread] at hheader
      cases hheader

theorem Bag.AcceptsExactly.lengthsInside (h : AcceptsExactly pre block post) : LengthsInside block := by
  by_contra hover
  obtain ⟨raws, rest, hraws, hblock, hrest, hlength⟩ := exists_raws_of_not block hover
  have hread := h.reads.trans (readFields_of_over hraws hrest hblock hlength)
  have hthrown := h.throws _ hread
  cases hthrown

end Accepts

/-- The reader meets its grammar on the blocks that no length leads out of. -/
theorem Bag.acceptsExactly_iff (pre block post : Bytes) :
    AcceptsExactly pre block post ↔ LengthsInside block :=
  ⟨AcceptsExactly.lengthsInside, acceptsExactly_of_lengthsInside⟩

/-- A length of two in front of the last byte, and a `=` behind the block. -/
theorem Bag.not_acceptsExactly_sample :
    ¬ AcceptsExactly [] [2, 0, 0, 0, 97] [61] := by
  intro h
  have hreads := congrArg (fun r => r.toOption.isSome) h.reads
  revert hreads
  decide

end Embag
