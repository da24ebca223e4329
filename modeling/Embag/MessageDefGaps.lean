import Embag.MessageDefSkipper
import Embag.MessageDefText

/-! The skipper on gaps. What it leaves of a gap does not depend on the text behind the
gap, and what it leaves, if anything, starts with a byte no rule of the grammar reads. -/

namespace Embag

open RosMsgSkipper

/-- Text in which every comment has an end and that does not end in `=`. -/
structure Closed (u : Bytes) : Prop where
  comment : ∀ q, 35 :: q <:+ u → 10 ∈ q
  last : u.getLast? ≠ some 61

/-- Text the skipper can only enter by a separator. -/
def StartsPlain (x : Bytes) : Prop := ∀ c ∈ x.head?, isSpace c = false ∧ c ≠ 35

theorem startsPlain_nil : StartsPlain [] := by simp [StartsPlain]

theorem startsPlain_cons {c : UInt8} {r : Bytes} (hc : isSpace c = false) (hh : c ≠ 35) :
    StartsPlain (c :: r) := by
  simpa [StartsPlain] using ⟨hc, hh⟩

theorem Closed.of_suffix {u r : Bytes} (h : Closed u) (hr : r <:+ u) : Closed r := by
  refine ⟨fun q hq => h.comment q (hq.trans hr), fun hlast => h.last ?_⟩
  obtain ⟨t, rfl⟩ := hr
  rw [List.getLast?_append, hlast]
  rfl

theorem dropWhile_append_of_head {P : UInt8 → Bool} {x : Bytes}
    (hx : ∀ c ∈ x.head?, P c = false) (u : Bytes) :
    (u ++ x).dropWhile P = u.dropWhile P ++ x := by
  rw [List.dropWhile_append]
  split_ifs with h
  · rw [List.isEmpty_iff.1 h, List.nil_append]
    cases x with
    | nil => rfl
    | cons c r => exact List.dropWhile_cons_of_neg (by simp [hx c rfl])
  · rfl

theorem dropWhile_append_of_mem {P : UInt8 → Bool} {u : Bytes} {c : UInt8} (hc : c ∈ u)
    (hP : P c = false) (x : Bytes) : (u ++ x).dropWhile P = u.dropWhile P ++ x := by
  rw [List.dropWhile_append, if_neg]
  intro h
  have hall := List.dropWhile_eq_nil_iff.1 (List.isEmpty_iff.1 h) c hc
  rw [hP] at hall
  cases hall

section Append

variable {u x : Bytes}

theorem eolRest_append (hx : StartsPlain x) :
    ∀ u, u ≠ [] → eolRest (u ++ x) = (eolRest u).map (· ++ x)
  | [], h => absurd rfl h
  | [c], _ => by
    by_cases h10 : c = 10
    · subst h10
      rfl
    · by_cases h13 : c = 13
      · subst h13
        cases x with
        | nil => rfl
        | cons d r =>
          have hd : d ≠ 10 := by
            rintro rfl
            exact absurd (hx 10 rfl).1 (by decide)
          simp [eolRest, hd]
      · rw [List.singleton_append, eolRest_cons_of_ne h10 h13, eolRest_cons_of_ne h10 h13]
        rfl
  | c :: d :: u, _ => by
    by_cases h10 : c = 10
    · subst h10
      rfl
    · by_cases h13 : c = 13
      · subst h13
        by_cases hd : d = 10
        · subst hd
          rfl
        · simp [eolRest, hd]
      · rw [List.cons_append, eolRest_cons_of_ne h10 h13, eolRest_cons_of_ne h10 h13]
        rfl

theorem eolRest_of_startsPlain (hx : StartsPlain x) : eolRest x = none := by
  cases x with
  | nil => rfl
  | cons c r => exact eolRest_of_not_space (hx c rfl).1

theorem commentRest_append (hu : Closed u) (hx : StartsPlain x) :
    commentRest (u ++ x) = (commentRest u).map (· ++ x) := by
  have hd := dropWhile_append_of_head (fun c hc => (hx c hc).1) u
  unfold commentRest
  rw [hd]
  cases h : u.dropWhile isSpace with
  | nil =>
    cases x with
    | nil => rfl
    | cons c r =>
      have hc := (hx c rfl).2
      rw [List.nil_append]
      split <;> simp_all
  | cons c r =>
    by_cases hc : c = 35
    · subst hc
      have hsuf : 35 :: r <:+ u := h ▸ List.dropWhile_suffix _
      exact congrArg some (dropWhile_append_of_mem (hu.comment r hsuf) (by decide) x)
    · rw [List.cons_append]
      split <;> simp_all

theorem separatorLine_prefix_append (hu : Closed u) (hne : u ≠ []) :
    separatorLine <+: u ++ x ↔ separatorLine <+: u := by
  refine ⟨fun h => ?_, fun h => h.trans (List.prefix_append _ _)⟩
  refine (List.prefix_or_prefix_of_prefix h (List.prefix_append u x)).resolve_right fun hp => ?_
  -- otherwise the whole of `u` is a run of `=`
  have hmem : u.getLast hne ∈ separatorLine := hp.subset (List.getLast_mem hne)
  refine hu.last ?_
  rw [List.getLast?_eq_some_getLast hne, eq_of_mem_separatorLine hmem]

theorem separatorRest_append (hu : Closed u) (hne : u ≠ []) :
    separatorRest (u ++ x) = (separatorRest u).map (· ++ x) := by
  unfold separatorRest
  by_cases h : separatorLine <+: u
  · have hlen : 80 ≤ u.length := by simpa [length_separatorLine] using h.length_le
    rw [if_pos h, if_pos ((separatorLine_prefix_append hu hne).2 h),
      List.drop_append_of_le_length hlen]
    rfl
  · rw [if_neg h, if_neg fun h' => h ((separatorLine_prefix_append hu hne).1 h')]
    rfl

theorem skipRest_append (hu : Closed u) (hne : u ≠ []) (hx : StartsPlain x) :
    skipRest (u ++ x) = (skipRest u).map (· ++ x) := by
  have hblank : eolRest ((u ++ x).dropWhile (· = 32)) =
      (eolRest (u.dropWhile (· = 32))).map (· ++ x) := by
    have hx32 : ∀ c ∈ x.head?, decide (c = 32) = false := by
      intro c hc
      rw [decide_eq_false_iff_not]
      rintro rfl
      exact absurd (hx 32 hc).1 (by decide)
    rw [dropWhile_append_of_head hx32]
    cases h : u.dropWhile (· = 32) with
    | nil => exact eolRest_of_startsPlain hx
    | cons c r => exact eolRest_append hx _ (List.cons_ne_nil _ _)
  unfold skipRest
  rw [eolRest_append hx u hne, commentRest_append hu hx, separatorRest_append hu hne, hblank]
  cases eolRest u with
  | some r =>
    have hd := dropWhile_append_of_head (fun c hc => (hx c hc).1) r
    simp [hd]
  | none =>
    cases commentRest u with
    | some r => rfl
    | none => cases separatorRest u <;> rfl

theorem skipRest_suffix {s r : Bytes} (h : skipRest s = some r) : r <:+ s := by
  have hp : skip.parse .none s = some ((), r) := by rw [parse_skip, h]; rfl
  exact skip.parse_suffix hp

theorem skipper_append (hu : Closed u) (hx : StartsPlain x) :
    skipper (u ++ x) = if skipper u = [] then skipper x else skipper u ++ x := by
  induction u using skipper_induction with
  | stop u h =>
    rw [skipper_of_none h]
    split_ifs with hnil
    · rw [hnil, List.nil_append]
    · exact skipper_of_none (by rw [skipRest_append hu hnil hx, h]; rfl)
  | step u r h ih =>
    have hne : u ≠ [] := by
      rintro rfl
      rw [skipRest_nil] at h
      cases h
    have happ : skipRest (u ++ x) = some (r ++ x) := by rw [skipRest_append hu hne hx, h]; rfl
    rw [skipper_of_some happ, skipper_of_some h, ih (hu.of_suffix (skipRest_suffix h))]

end Append

theorem suffix_or_mem {q r : Bytes} (w : Bytes) (h : 35 :: q <:+ w ++ 10 :: r) :
    10 ∈ q ∨ 35 :: q <:+ r := by
  induction w with
  | nil =>
    rcases List.suffix_cons_iff.1 h with h | h
    · exact absurd (List.cons.inj h).1 (by decide)
    · exact Or.inr h
  | cons c w ih =>
    rcases List.suffix_cons_iff.1 h with h | h
    · rw [(List.cons.inj h).2]
      exact Or.inl (by simp)
    · exact ih h

namespace Gap

@[simp] theorem text_nil : text [] = [] := rfl

@[simp] theorem text_cons (p : Piece) (g : Gap) : text (p :: g) = p.text ++ text g := rfl

theorem text_append (g h : Gap) : text (g ++ h) = text g ++ text h := List.flatMap_append

theorem closed (g : Gap) : Closed (text g) := by
  induction g with
  | nil => exact ⟨fun q hq => by simp at hq, by simp⟩
  | cons p g ih =>
    refine ⟨fun q hq => ?_, ?_⟩
    · rw [text_cons] at hq
      cases p with
      | blank =>
        rcases List.suffix_cons_iff.1 hq with h | h
        · exact absurd (List.cons.inj h).1 (by decide)
        · exact ih.comment q h
      | newline => exact (suffix_or_mem [] hq).elim id (ih.comment q)
      | comment c =>
        rw [Piece.text, List.append_assoc] at hq
        exact (suffix_or_mem (35 :: c.text) hq).elim id (ih.comment q)
    · rw [text_cons, List.getLast?_append]
      cases h : (text g).getLast? with
      | some b =>
        intro hb
        exact ih.last (h.trans hb)
      | none =>
        cases p with
        | blank => decide
        | newline => decide
        | comment c => simp [Piece.text, List.getLast?_cons]

def Skipped (g : Gap) : Prop := skipper (text g) = []

theorem skipper_text_append (g : Gap) {x : Bytes} (hx : StartsPlain x) :
    skipper (text g ++ x) = if skipper (text g) = [] then skipper x else skipper (text g) ++ x :=
  skipper_append g.closed hx

theorem Skipped.skipper_eq {g : Gap} (h : g.Skipped) {x : Bytes} (hx : StartsPlain x) :
    skipper (text g ++ x) = skipper x := by
  rw [skipper_text_append g hx]
  exact if_pos h

def isWhite : Piece → Bool
  | .comment _ => false
  | _ => true

def isBlank : Piece → Bool
  | .blank => true
  | _ => false

theorem dropWhile_isSpace (g : Gap) : (text g).dropWhile isSpace = text (g.dropWhile isWhite) := by
  induction g with
  | nil => rfl
  | cons p g ih =>
    cases p with
    | blank => exact ih
    | newline => exact ih
    | comment c => rfl

theorem dropWhile_blank (g : Gap) :
    (text g).dropWhile (· = 32) = text (g.dropWhile isBlank) := by
  induction g with
  | nil => rfl
  | cons p g ih =>
    cases p with
    | blank => exact ih
    | newline => rfl
    | comment c => rfl

theorem text_of_blanks {g : Gap} (h : g.dropWhile isBlank = []) : text g = blanks g.length := by
  rw [List.dropWhile_eq_nil_iff] at h
  induction g with
  | nil => rfl
  | cons p g ih =>
    cases p with
    | blank => rw [text_cons, ih fun p hp => h p (List.mem_cons_of_mem _ hp)]; rfl
    | newline => exact absurd (h _ List.mem_cons_self) (by decide)
    | comment c => exact absurd (h _ List.mem_cons_self) (by simp [isBlank])

theorem skipper_newline (g : Gap) :
    skipper (text (.newline :: g)) = skipper (text (g.dropWhile isWhite)) := by
  rw [← dropWhile_isSpace]
  exact Embag.skipper_newline (text g)

theorem skipRest_blanks (k : ℕ) : skipRest (blanks k) = none := by
  cases k with
  | zero => exact skipRest_nil
  | succ k =>
    have hspace : (blanks (k + 1)).dropWhile isSpace = [] := by
      rw [List.dropWhile_eq_nil_iff]
      intro c hc
      rw [List.eq_of_mem_replicate hc]
      decide
    have hblank : (blanks (k + 1)).dropWhile (· = 32) = [] := by
      rw [List.dropWhile_eq_nil_iff]
      intro c hc
      rw [List.eq_of_mem_replicate hc]
      decide
    have heol : eolRest (blanks (k + 1)) = none := eolRest_cons_of_ne (by decide) (by decide)
    have hcomment : commentRest (blanks (k + 1)) = none := by simp only [commentRest, hspace]
    have hrule : separatorRest (blanks (k + 1)) = none :=
      if_neg (not_separatorLine_prefix_of_ne (by decide))
    rw [skipRest, heol, hcomment, hrule, hblank]
    rfl

/-- No comment ends before its line does. -/
def CrFree (g : Gap) : Prop := ∀ c, Piece.comment c ∈ g → 13 ∉ c.text

/-- Lines of blanks, none of them empty, and behind them the blanks an item is indented by. -/
inductive Indents : Gap → Prop
  | blanks (k : ℕ) : Indents (List.replicate (k + 1) .blank)
  | line (k : ℕ) {g : Gap} (rest : Indents g) :
    Indents (List.replicate (k + 1) .blank ++ .newline :: g)

def IsAscii (g : Gap) : Prop := ∀ c, Piece.comment c ∈ g → ∀ b ∈ c.text, isAscii b

/-- What the skipper leaves of a gap: nothing, the blanks in front of an indented item, or
a comment from a byte on that is not ASCII. -/
inductive Residue (g : Gap) : Bytes → Prop
  | nil (ascii : g.IsAscii) : Residue g []
  | blanks (k : ℕ) (indents : Indents g) : Residue g (Embag.blanks (k + 1))
  | comment (c : Comment) (b : UInt8) (r : Bytes) (mem : Piece.comment c ∈ g) (mem' : b ∈ c.text)
      (ascii : isAscii b = false) : Residue g (b :: r)

theorem Indents.head_white {p : Piece} {g : Gap} (h : Indents (p :: g)) : isWhite p = true := by
  generalize hg : p :: g = g' at h
  cases h with
  | blanks k => cases hg; rfl
  | line k rest => cases hg; rfl

theorem mem_dropWhile_isWhite {g : Gap} {c : Comment} (h : Piece.comment c ∈ g) :
    Piece.comment c ∈ g.dropWhile isWhite := by
  rw [← List.takeWhile_append_dropWhile (p := isWhite) (l := g), List.mem_append] at h
  exact h.resolve_left fun h => by cases List.mem_takeWhile_imp h

/-- Pieces that are no comments may be put in front of a gap that starts with none. -/
theorem Residue.of_dropWhile {g h : Gap} {x : Bytes} (hx : Residue (g.dropWhile isWhite) x)
    (hsub : ∀ p ∈ g, p ∈ h) (hcomment : ∀ c, Piece.comment c ∈ h → Piece.comment c ∈ g ∨
      ∀ b ∈ c.text, isAscii b) : Residue h x := by
  have hdrop := (List.dropWhile_suffix (l := g) isWhite).subset
  cases hx with
  | nil ascii =>
    refine .nil fun c hc b hb => ?_
    rcases hcomment c hc with h | h
    · exact ascii c (mem_dropWhile_isWhite h) b hb
    · exact h b hb
  | blanks k indents =>
    cases hg : g.dropWhile isWhite with
    | nil =>
      rw [hg] at indents
      cases indents
    | cons p r =>
      have hhead := List.head?_dropWhile_not isWhite g
      rw [hg] at hhead indents
      have hwhite : isWhite p = false := hhead
      rw [indents.head_white] at hwhite
      cases hwhite
  | comment c b r mem mem' ascii => exact .comment c b r (hsub _ (hdrop mem)) mem' ascii

theorem residue_of_comment {s : Bytes} {c : Comment} {g : Gap} (hcr : 13 ∉ c.text)
    (heol : eolRest s = none) (hs : s.dropWhile isSpace = text (.comment c :: g)) :
    (∀ b ∈ c.text, isAscii b) ∧ skipper s = skipper (text (.newline :: g)) ∨
      ∃ b r, b ∈ c.text ∧ isAscii b = false ∧ skipper s = b :: r := by
  have hcons : text (.comment c :: g) = 35 :: (c.text ++ text (.newline :: g)) := by
    rw [text_cons, Piece.text, List.append_assoc]
    rfl
  rw [skipper_of_some (skipRest_of_comment heol (hs.trans hcons))]
  have hend : ∀ b ∈ (text (.newline :: g)).head?, isCommentChar b = false := by
    intro b hb
    cases hb
    decide
  rw [dropWhile_append_of_head hend]
  cases h : c.text.dropWhile isCommentChar with
  | nil =>
    refine Or.inl ⟨fun b hb => ?_, rfl⟩
    have hchar := List.dropWhile_eq_nil_iff.1 h b hb
    rw [isCommentChar, Bool.and_eq_true] at hchar
    exact hchar.1
  | cons b r =>
    have hb : isCommentChar b = false := by
      have hhead := List.head?_dropWhile_not isCommentChar c.text
      rw [h] at hhead
      simpa using hhead
    have hmem : b ∈ c.text := (List.dropWhile_suffix _).subset (h ▸ List.mem_cons_self)
    have hb10 : b ≠ 10 := fun hb => c.oneLine (hb ▸ hmem)
    have hb13 : b ≠ 13 := fun hb => hcr (hb ▸ hmem)
    have hascii : isAscii b = false := by simpa [isCommentChar, hb10, hb13] using hb
    have hplain : isSpace b = false ∧ b ≠ 35 ∧ b ≠ 61 := by
      simp only [isAscii, isSpace, Bool.or_eq_false_iff, Bool.and_eq_false_iff,
        decide_eq_false_iff_not, ne_eq, UInt8.le_iff_toNat_le, UInt8.lt_iff_toNat_lt,
        ← UInt8.toNat_inj, UInt8.reduceToNat] at hascii ⊢
      omega
    exact Or.inr ⟨b, _, hmem, hascii, skipper_of_plain hplain.1 hplain.2.1 hplain.2.2⟩

theorem eq_replicate_of_blanks {g : Gap} (h : ∀ p ∈ g, isBlank p) :
    g = List.replicate g.length .blank := by
  refine List.eq_replicate_iff.2 ⟨rfl, fun p hp => ?_⟩
  have hb := h p hp
  cases p with
  | blank => rfl
  | newline => cases hb
  | comment c => cases hb

theorem skipRest_white {g : Gap} (hw : (Piece.blank :: g).dropWhile isWhite = []) :
    skipRest (text (.blank :: g)) =
      eolRest (text ((Piece.blank :: g).dropWhile isBlank)) := by
  have heol : eolRest (text (.blank :: g)) = none := rfl
  have hcomment : commentRest (text (.blank :: g)) = none := by
    simp only [commentRest, dropWhile_isSpace, hw, text_nil]
  have hrule : separatorRest (text (.blank :: g)) = none :=
    if_neg (not_separatorLine_prefix_of_ne (by decide))
  rw [skipRest, heol, hcomment, hrule, dropWhile_blank]
  rfl

section Turns

variable {g h : Gap} {c : Comment}

theorem residue_of_newline (ih : ∀ k : Gap, k.length < g.length → k.CrFree → Residue k (skipper (text k)))
    (hcr : g.CrFree) (hlen : h.length < g.length) (hsub : ∀ p ∈ h, p ∈ g)
    (hcomment : ∀ c, Piece.comment c ∈ g → Piece.comment c ∈ h ∨ ∀ b ∈ c.text, isAscii b) :
    Residue g (skipper (text (.newline :: h))) := by
  rw [skipper_newline]
  have hsuf := List.dropWhile_suffix (l := h) isWhite
  exact (ih _ (hsuf.length_le.trans_lt hlen)
    fun c hc => hcr c (hsub _ (hsuf.subset hc))).of_dropWhile hsub hcomment

theorem residue_of_first_comment
    (ih : ∀ k : Gap, k.length < g.length → k.CrFree → Residue k (skipper (text k))) (hcr : g.CrFree)
    (heol : eolRest (text g) = none) (hw : g.dropWhile isWhite = .comment c :: h) :
    Residue g (skipper (text g)) := by
  have hsuf : .comment c :: h <:+ g := hw ▸ List.dropWhile_suffix _
  have hmem : Piece.comment c ∈ g := hsuf.subset List.mem_cons_self
  rcases residue_of_comment (hcr c hmem) heol (by rw [dropWhile_isSpace, hw]) with
    ⟨hascii, h'⟩ | ⟨b, r, hb, hascii, h'⟩
  · rw [h']
    refine residue_of_newline ih hcr hsuf.length_le
      (fun p hp => hsuf.subset (List.mem_cons_of_mem _ hp)) fun d hd => ?_
    have hd' := mem_dropWhile_isWhite hd
    rw [hw] at hd'
    rcases List.mem_cons.1 hd' with hd' | hd'
    · cases hd'
      exact Or.inr hascii
    · exact Or.inl hd'
  · rw [h']
    exact .comment c b r hmem hb hascii

theorem residue_of_white
    (ih : ∀ k : Gap, k.length < (Piece.blank :: g).length → k.CrFree → Residue k (skipper (text k)))
    (hcr : Gap.CrFree (Piece.blank :: g)) (hw : (Piece.blank :: g).dropWhile isWhite = []) :
    Residue (.blank :: g) (skipper (text (.blank :: g))) := by
  have hskip := skipRest_white hw
  cases hb : (Piece.blank :: g).dropWhile isBlank with
  | nil =>
    have heq := eq_replicate_of_blanks (List.dropWhile_eq_nil_iff.1 hb)
    rw [text_of_blanks hb, skipper_of_none (skipRest_blanks _)]
    refine .blanks g.length ?_
    rw [heq]
    exact .blanks _
  | cons q h =>
    have hsuf : q :: h <:+ Piece.blank :: g := hb ▸ List.dropWhile_suffix _
    have hq : isBlank q = false := by
      have hhead := List.head?_dropWhile_not isBlank (Piece.blank :: g)
      rw [hb] at hhead
      simpa using hhead
    have hwhite := List.dropWhile_eq_nil_iff.1 hw
    cases q with
    | blank => cases hq
    | comment c => cases hwhite _ (hsuf.subset List.mem_cons_self)
    | newline =>
      have hlen : h.length < (Piece.blank :: g).length := hsuf.length_le
      have hsub : ∀ p ∈ h, p ∈ Piece.blank :: g :=
        fun p hp => hsuf.subset (List.mem_cons_of_mem _ hp)
      have hline : Piece.blank :: g =
          List.replicate (g.takeWhile isBlank).length.succ .blank ++ .newline :: h := by
        have htake := List.takeWhile_append_dropWhile (p := isBlank) (l := Piece.blank :: g)
        rw [hb, eq_replicate_of_blanks fun p hp => List.mem_takeWhile_imp hp] at htake
        exact htake.symm
      rw [hb] at hskip
      rw [skipper_of_some (r := text h) hskip]
      have hrest := ih h hlen fun c hc => hcr c (hsub _ hc)
      generalize skipper (text h) = x at hrest
      cases hrest with
      | nil ascii => exact .nil fun c hc => by cases hwhite _ hc
      | blanks k indents =>
        refine .blanks k ?_
        rw [hline]
        exact .line _ indents
      | comment c b r mem mem' ascii => exact .comment c b r (hsub _ mem) mem' ascii

end Turns

/-- The turns of the skipper on a gap, by the pieces it starts with. -/
theorem residue (g : Gap) (hcr : g.CrFree) : Residue g (skipper (text g)) := by
  induction hn : g.length using Nat.strong_induction_on generalizing g with
  | _ n ih =>
    subst hn
    have ih' : ∀ k : Gap, k.length < g.length → k.CrFree → Residue k (skipper (text k)) :=
      fun k hk hcr => ih _ hk k hcr rfl
    cases g with
    | nil =>
      rw [text_nil, skipper_nil]
      exact .nil fun c hc => by cases hc
    | cons p g =>
      cases p with
      | newline =>
        refine residue_of_newline ih' hcr (by simp) (fun p hp => List.mem_cons_of_mem _ hp) fun c hc => Or.inl ?_
        simpa using hc
      | comment c => exact residue_of_first_comment ih' hcr rfl rfl
      | blank =>
        cases hw : (Piece.blank :: g).dropWhile isWhite with
        | nil => exact residue_of_white ih' hcr hw
        | cons q h =>
          have hq : isWhite q = false := by
            have hhead := List.head?_dropWhile_not isWhite (Piece.blank :: g)
            rw [hw] at hhead
            simpa using hhead
          cases q with
          | blank => cases hq
          | newline => cases hq
          | comment c => exact residue_of_first_comment ih' hcr rfl hw

theorem Indents.white {g : Gap} (h : Indents g) : ∀ p ∈ g, isWhite p := by
  induction h with
  | blanks k =>
    intro p hp
    rw [List.eq_of_mem_replicate hp]
    rfl
  | line k rest ih =>
    intro p hp
    rcases List.mem_append.1 hp with hp | hp
    · rw [List.eq_of_mem_replicate hp]
      rfl
    · rcases List.mem_cons.1 hp with rfl | hp
      · rfl
      · exact ih p hp

/-- Each blank line is eaten on its own, so that the indentation is left. -/
theorem Indents.skipper_ne_nil {g : Gap} (h : Indents g) : skipper (text g) ≠ [] := by
  induction h with
  | blanks k =>
    have hblank : (List.replicate (k + 1) Piece.blank).dropWhile isBlank = [] :=
      List.dropWhile_eq_nil_iff.2 fun p hp => by rw [List.eq_of_mem_replicate hp]; rfl
    rw [text_of_blanks hblank, skipper_of_none (skipRest_blanks _), List.length_replicate]
    exact List.cons_ne_nil _ _
  | @line k g rest ih =>
    have hw := List.dropWhile_eq_nil_iff.2 (Indents.line k rest).white
    have hblank : (List.replicate (k + 1) Piece.blank ++ .newline :: g).dropWhile isBlank =
        .newline :: g := by
      rw [List.dropWhile_append_of_pos fun p hp => by rw [List.eq_of_mem_replicate hp]; rfl]
      exact List.dropWhile_cons_of_neg (by decide)
    have hskip : skipRest (text (List.replicate (k + 1) Piece.blank ++ .newline :: g)) =
        some (text g) := by
      rw [List.replicate_succ, List.cons_append] at hw hblank ⊢
      rw [skipRest_white hw, hblank]
      rfl
    rw [skipper_of_some hskip]
    exact ih

/-- A gap without carriage returns in its comments is skipped unless a comment has a byte
that is not ASCII, or blank lines and the indentation of an item follow blanks at the end
of a line. -/
theorem skipped_iff {g : Gap} (hcr : g.CrFree) : g.Skipped ↔ g.IsAscii ∧ ¬ g.Indents := by
  have hr := g.residue hcr
  have hstuck : g.Indents → skipper (text g) ≠ [] := Indents.skipper_ne_nil
  unfold Skipped
  generalize skipper (text g) = x at hr hstuck
  cases hr with
  | nil ascii => simpa [ascii] using fun h => hstuck h rfl
  | blanks k indents =>
    exact ⟨fun h => absurd h (List.cons_ne_nil _ _), fun h => absurd indents h.2⟩
  | comment c b r mem mem' ascii =>
    refine ⟨fun h => absurd h (List.cons_ne_nil _ _), fun h => ?_⟩
    rw [h.1 c mem b mem'] at ascii
    cases ascii

end Gap

end Embag
