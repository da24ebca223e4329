import Mathlib.Data.Fintype.Card
import Mathlib.Data.Set.Finite.Basic
import Mathlib.Logic.Relation
import Embag.MessageDefParser
import Embag.MessageWalk
import Embag.MsgDefBuild

/-! When parsing ends. Only the lengths of strings and of dynamic arrays are checked
against the buffer, so a definition that leads back to itself before any of those is
read is entered without end; every other cycle uses the buffer up. -/

namespace Embag

open Outcomes Relation

namespace FieldDef

/-- The field has at least one value, whatever the buffer. -/
def Always (f : FieldDef) : Prop :=
  f.arraySize = 0 ∨ f.arraySize ≠ -1 ∧ (f.arraySize % 2 ^ 32).toNat ≠ 0

end FieldDef

/-- Laying out an object of this definition checks nothing against the buffer. -/
inductive SilentDef (m : MsgDef) : BaseMsgDef → Prop
  | intro {d : BaseMsgDef} (fixed : ∀ f ∈ d.fields, f.arraySize ≠ -1)
    (noString : ∀ f ∈ d.fields, f.Always → f.type ≠ .string)
    (parts : ∀ f ∈ d.fields, f.Always → ∀ e, m.typeDefinition f = .ok e → SilentDef m e) :
    SilentDef m d

structure SilentField (m : MsgDef) (f : FieldDef) : Prop where
  fixed : f.arraySize ≠ -1
  noString : f.Always → f.type ≠ .string
  parts : f.Always → ∀ e, m.typeDefinition f = .ok e → SilentDef m e

/-- Laying out an object of definition `d` comes to one of definition `e` unchecked. -/
def SilentEnters (m : MsgDef) (d e : BaseMsgDef) : Prop :=
  ∃ before f after, d.fields = before ++ f :: after ∧ (∀ g ∈ before, SilentField m g) ∧
    f.Always ∧ m.typeDefinition f = .ok e

/-- The walk from `offset` comes to an object of definition `e`. -/
def Meets (m : MsgDef) (buffer : Bytes) (offset : ℕ) (e : BaseMsgDef) : Prop :=
  e = m.toBaseMsgDef ∨ ∃ leaves f rest p, Walks m buffer m.fields offset leaves (f :: rest) p ∧
    f.arraySize = 0 ∧ m.typeDefinition f = .ok e

/-- A definition that leads back to itself unchecked. -/
def Circular (m : MsgDef) (e : BaseMsgDef) : Prop := TransGen (SilentEnters m) e e

variable {m : MsgDef} {buffer : Bytes} {todo todo' : List FieldDef} {p p' : ℕ}
  {leaves : List Region}

theorem SilentDef.fields {d : BaseMsgDef} (h : SilentDef m d) : ∀ f ∈ d.fields, SilentField m f := by
  obtain ⟨fixed, noString, parts⟩ := h
  exact fun f hf => ⟨fixed f hf, noString f hf, parts f hf⟩

theorem silentDef_of_fields {d : BaseMsgDef} (h : ∀ f ∈ d.fields, SilentField m f) :
    SilentDef m d :=
  .intro (fun f hf => (h f hf).fixed) (fun f hf => (h f hf).noString) fun f hf => (h f hf).parts

theorem Circular.enters {e : BaseMsgDef} (h : Circular m e) :
    ∃ e', SilentEnters m e e' ∧ Circular m e' := by
  obtain ⟨e', he, hback⟩ := TransGen.head'_iff.1 h
  exact ⟨e', he, TransGen.tail' hback he⟩

def MsgDef.Has (m : MsgDef) (d : BaseMsgDef) : Prop :=
  d = m.toBaseMsgDef ∨ ∃ key, m.embeddedDefinitionMap.lookup key = some d

theorem MsgDef.has_of_typeDefinition {f : FieldDef} {e : BaseMsgDef}
    (h : m.typeDefinition f = .ok e) : m.Has e :=
  Or.inr (MessageParser.mem_of_typeDefinition h)

def Typed (m : MsgDef) (f : FieldDef) : Prop :=
  f.type = .object → ∃ e, m.typeDefinition f = .ok e

theorem MsgDef.Has.typed {d : BaseMsgDef} (hresolved : m.Resolved) (h : m.Has d) :
    ∀ f ∈ d.fields, Typed m f := hresolved d h

/-- No exception: a result, or no fuel left. -/
def Quiet {α : Type} (r : Except Fault α) : Prop := r = .error .outOfFuel ∨ ∃ a, r = .ok a

theorem Quiet.map {α β : Type} {r : Except Fault α} (h : Quiet r) (g : α → β) :
    Quiet (r.map g) := by
  rcases h with rfl | ⟨a, rfl⟩
  · exact Or.inl rfl
  · exact Or.inr ⟨g a, rfl⟩

theorem quiet_shapes {α : Type} {step : α → Layout} {items : List α}
    (h : ∀ a ∈ items, ∀ p, Quiet (step a p)) (p : ℕ) : Quiet (shapes step items p) := by
  induction items generalizing p with
  | nil => exact Or.inr ⟨_, rfl⟩
  | cons a items ih =>
    rw [List.forall_mem_cons] at h
    rcases h.1 p with ha | ⟨r, ha⟩
    · rw [shapes_cons_of_error ha]
      exact Or.inl rfl
    · rw [shapes_cons_of_ok ha]
      exact (ih h.2 r.2).map _

theorem shapeLength_of_fixed {f : FieldDef} (h : f.arraySize ≠ -1) (q : ℕ) :
    shapeLength buffer f q = .ok ((f.arraySize % 2 ^ 32).toNat, q) := if_neg h

theorem quiet_scalarField {object : BaseMsgDef → Layout} {f : FieldDef} (hsize : f.arraySize = 0)
    (hstr : f.type ≠ .string) (htyped : Typed m f)
    (hobject : ∀ e, m.typeDefinition f = .ok e → ∀ p, Quiet (object e p)) (p : ℕ) :
    Quiet (shapeField m buffer object f p) := by
  by_cases hobj : f.type = .object
  · obtain ⟨e, he⟩ := htyped hobj
    rw [shapeField_object hsize he]
    exact hobject e he p
  · obtain ⟨w, -, hw⟩ := exists_typeSize (not_or.2 ⟨hobj, hstr⟩)
    exact Or.inr ⟨_, shapeField_scalar hsize hw⟩

theorem quiet_field {object : BaseMsgDef → Layout} {f : FieldDef} (h : SilentField m f)
    (htyped : Typed m f)
    (hobject : f.Always → ∀ e, m.typeDefinition f = .ok e → ∀ p, Quiet (object e p)) (p : ℕ) :
    Quiet (shapeField m buffer object f p) := by
  by_cases hsize : f.arraySize = 0
  · exact quiet_scalarField hsize (h.noString (Or.inl hsize)) htyped (hobject (Or.inl hsize)) p
  by_cases htype : f.type = .object ∨ f.type = .string
  · rw [shapeField_array hsize htype, shapeLength_of_fixed h.fixed, ok_bind]
    refine (quiet_shapes (fun g hg => ?_) p).map _
    have halways : f.Always := by
      refine Or.inr ⟨h.fixed, fun hn => ?_⟩
      rw [hn] at hg
      cases hg
    rw [List.eq_of_mem_replicate hg]
    exact quiet_scalarField f.arraySize_element (h.noString halways) htyped (hobject halways)
  · obtain ⟨w, -, hw⟩ := exists_typeSize htype
    rw [shapeField_numbers hsize hw, shapeLength_of_fixed h.fixed]
    exact Or.inr ⟨_, rfl⟩

theorem SilentDef.quiet (hresolved : m.Resolved) {d : BaseMsgDef} (h : SilentDef m d)
    (hd : m.Has d) (fuel p : ℕ) : Quiet (shapeObject m buffer fuel d p) := by
  induction h generalizing fuel p with
  | @intro d fixed noString parts ih =>
    cases fuel with
    | zero => exact Or.inl rfl
    | succ fuel =>
      rw [shapeObject_succ]
      refine (quiet_shapes (fun f hf => ?_) p).map _
      apply quiet_field ⟨fixed f hf, noString f hf, parts f hf⟩ (hd.typed hresolved f hf)
      exact fun halways e he => ih f hf halways e he (MsgDef.has_of_typeDefinition he) fuel

theorem stuck_field {object : BaseMsgDef → Layout} {f : FieldDef} {e : BaseMsgDef}
    (halways : f.Always) (he : m.typeDefinition f = .ok e)
    (hstuck : ∀ p, object e p = .error .outOfFuel) (p : ℕ) :
    shapeField m buffer object f p = .error .outOfFuel := by
  by_cases hsize : f.arraySize = 0
  · rw [shapeField_object hsize he, hstuck]
  · obtain ⟨hfixed, hn⟩ := halways.resolve_left hsize
    have htype := MessageParser.type_of_typeDefinition he
    rw [shapeField_array hsize (Or.inl htype), shapeLength_of_fixed hfixed, ok_bind]
    obtain ⟨n, hn⟩ := Nat.exists_eq_succ_of_ne_zero hn
    rw [hn, List.replicate_succ, shapes_cons_of_error (e := .outOfFuel)]
    · rfl
    · rw [shapeField_object f.arraySize_element he, hstuck]

theorem Circular.stuck (buffer : Bytes) (hresolved : m.Resolved) {e : BaseMsgDef} (h : Circular m e)
    (he : m.Has e) (fuel p : ℕ) : shapeObject m buffer fuel e p = .error .outOfFuel := by
  induction fuel generalizing e p with
  | zero => rfl
  | succ fuel ih =>
    obtain ⟨e', ⟨before, f, after, hfields, hbefore, halways, hf⟩, hcircular⟩ := h.enters
    have htyped := he.typed hresolved
    rw [hfields] at htyped
    have hquiet : ∀ q, Quiet (shapes (shapeField m buffer (shapeObject m buffer fuel)) before q) := by
      apply quiet_shapes
      intro g hg
      apply quiet_field (hbefore g hg) (htyped g (List.mem_append_left _ hg))
      exact fun hg' d hd => ((hbefore g hg).parts hg' d hd).quiet hresolved
        (MsgDef.has_of_typeDefinition hd) fuel
    rw [shapeObject_succ, hfields, shapeFields, shapes_append]
    rcases hquiet p with hb | ⟨r, hb⟩
    · rw [hb]
      rfl
    · rw [hb, ok_bind, shapes_cons_of_error (e := .outOfFuel)]
      · rfl
      · exact stuck_field halways hf (ih hcircular (MsgDef.has_of_typeDefinition hf)) r.2

def Ends (m : MsgDef) (buffer : Bytes) (todo : List FieldDef) (p : ℕ) : Prop :=
  ∃ fuel, shapeFields m buffer fuel todo p ≠ .error .outOfFuel

theorem Walks.ends (h : Walks m buffer todo p leaves todo' p') (hends : Ends m buffer todo p) :
    Ends m buffer todo' p' := by
  induction h with
  | refl => exact hends
  | scalar size width _ ih =>
    obtain ⟨fuel, hfuel⟩ := hends
    exact ih ⟨fuel, (prepends_cons _ (shapeField_scalar size width)).right_ne hfuel⟩
  | string size type word _ ih =>
    obtain ⟨fuel, hfuel⟩ := hends
    exact ih ⟨fuel, (prepends_cons _ (shapeField_string_of_word size type word)).right_ne hfuel⟩
  | @object f d todo _ p _ _ size definition _ ih =>
    obtain ⟨fuel, hfuel⟩ := hends
    cases fuel with
    | zero =>
      refine absurd ?_ hfuel
      rw [shapeFields, shapes_cons_of_error]
      rw [shapeField_object size definition]
      rfl
    | succ fuel =>
      have hparts : shapeFields m buffer fuel d.fields p ≠ .error .outOfFuel := by
        intro he
        refine hfuel (shapes_cons_of_error ?_)
        rw [shapeField_object size definition, shapeObject_succ, he]
        rfl
      exact ih ⟨fuel + 1, (prepends_group (.object d) (fun _ => rfl)
        (shapeField_object_eq size definition hparts)).right_ne hfuel⟩
  | array size type length _ ih =>
    obtain ⟨fuel, hfuel⟩ := hends
    refine ih ⟨fuel, (prepends_group .array (fun _ => rfl) ?_).right_ne hfuel⟩
    rw [shapeField_array size type, length, ok_bind]
    rfl
  | numbers size width length _ ih =>
    obtain ⟨fuel, hfuel⟩ := hends
    exact ih ⟨fuel, (prepends_cons _ (shapeField_numbers_of_length size width length)).right_ne hfuel⟩

/-! ### Every other cycle uses the buffer up -/

theorem Walks.append_right (h : Walks m buffer todo p leaves todo' p') (rest : List FieldDef) :
    Walks m buffer (todo ++ rest) p leaves (todo' ++ rest) p' := by
  induction h with
  | refl => exact .refl
  | scalar size width _ ih => exact .scalar size width ih
  | string size type word _ ih => exact .string size type word ih
  | object size definition _ ih =>
    rw [List.append_assoc] at ih
    exact .object size definition ih
  | array size type length _ ih =>
    rw [List.append_assoc] at ih
    exact .array size type length ih
  | numbers size width length _ ih => exact .numbers size width length ih

theorem shapeLength_eq_ok {f : FieldDef} {n q : ℕ} (h : shapeLength buffer f p = .ok (n, q)) :
    f.arraySize = -1 ∧ p < buffer.length ∧ q = p + 4 ∨
      f.arraySize ≠ -1 ∧ n = (f.arraySize % 2 ^ 32).toNat ∧ q = p := by
  by_cases hsize : f.arraySize = -1
  · unfold shapeLength at h
    rw [if_pos hsize] at h
    refine Or.inl ⟨hsize, ?_⟩
    by_cases hp : p < buffer.length
    · rw [atIndex_of_lt hp, ok_bind] at h
      cases hword : readWord 4 buffer p with
      | error e =>
        rw [hword] at h
        cases h
      | ok k =>
        rw [hword] at h
        cases h
        exact ⟨hp, rfl⟩
    · rw [atIndex, if_neg hp] at h
      cases h
  · rw [shapeLength_of_fixed hsize] at h
    cases h
    exact Or.inr ⟨hsize, rfl, rfl⟩

theorem le_of_shapeLength {f : FieldDef} {n q : ℕ} (h : shapeLength buffer f p = .ok (n, q)) :
    p ≤ q := by
  rcases shapeLength_eq_ok h with ⟨-, -, rfl⟩ | ⟨-, -, rfl⟩ <;> omega

theorem Walks.le (h : Walks m buffer todo p leaves todo' p') : p ≤ p' := by
  induction h with
  | refl => exact le_rfl
  | scalar size width _ ih => omega
  | string size type word _ ih => omega
  | object size definition _ ih => exact ih
  | array size type length _ ih => exact (le_of_shapeLength length).trans ih
  | numbers size width length _ ih =>
    have hle := le_of_shapeLength length
    omega

/-- Fields that were laid out checked nothing, or the cursor moved on inside the buffer. -/
theorem Walks.silent_or_reads (h : Walks m buffer todo p leaves [] p') :
    (∀ f ∈ todo, SilentField m f) ∨ p < buffer.length ∧ p < p' := by
  generalize htodo : ([] : List FieldDef) = last at h
  induction h with
  | refl =>
    subst htodo
    exact Or.inl fun g hg => by cases hg
  | @scalar f todo _ p w _ _ size width rest ih =>
    have hle := rest.le
    rcases ih htodo with hsilent | ⟨hp, hlt⟩
    · refine Or.inl (List.forall_mem_cons.2 ⟨⟨by omega, fun _ => ?_, fun _ e he => ?_⟩, hsilent⟩)
      · intro hstr
        rw [FieldDef.typeSize, if_pos (Or.inr hstr)] at width
        cases width
      · rw [FieldDef.typeSize, if_pos (Or.inl (MessageParser.type_of_typeDefinition he))] at width
        cases width
    · exact Or.inr ⟨by omega, by omega⟩
  | @string f todo _ p n _ _ size type word rest ih =>
    have hle := rest.le
    have hp := atIndex_ok_iff.1 (atIndex_of_readWord word (by norm_num))
    exact Or.inr ⟨hp, by omega⟩
  | @object f d todo _ p _ _ size definition rest ih =>
    refine (ih htodo).imp_left fun hsilent => List.forall_mem_cons.2 ⟨⟨by omega, fun _ => ?_,
      fun _ e he => ?_⟩, fun g hg => hsilent g (List.mem_append_right _ hg)⟩
    · rw [MessageParser.type_of_typeDefinition definition]
      decide
    · rw [definition] at he
      cases he
      exact silentDef_of_fields fun g hg => hsilent g (List.mem_append_left _ hg)
  | @array f todo _ p n q _ _ size type length rest ih =>
    have hle := rest.le
    rcases shapeLength_eq_ok length with ⟨-, hp, rfl⟩ | ⟨hfixed, hn, rfl⟩
    · exact Or.inr ⟨hp, by omega⟩
    · refine (ih htodo).imp_left fun hsilent => List.forall_mem_cons.2 ⟨?_,
        fun g hg => hsilent g (List.mem_append_right _ hg)⟩
      -- an array that always has an element is as silent as its first one
      have helement : f.Always → SilentField m f.element := by
        intro halways
        apply hsilent
        apply List.mem_append_left
        rw [hn]
        exact List.mem_replicate.2 ⟨(halways.resolve_left size).2, rfl⟩
      exact ⟨hfixed, fun halways => (helement halways).noString (Or.inl rfl),
        fun halways => (helement halways).parts (Or.inl rfl)⟩
  | @numbers f todo _ p w n q _ _ size width length rest ih =>
    have hle := rest.le
    rcases shapeLength_eq_ok length with ⟨-, hp, rfl⟩ | ⟨hfixed, hn, rfl⟩
    · exact Or.inr ⟨hp, by omega⟩
    · rcases ih htodo with hsilent | ⟨hp, hlt⟩
      · refine Or.inl (List.forall_mem_cons.2 ⟨⟨hfixed, fun _ => ?_, fun _ e he => ?_⟩, hsilent⟩)
        · intro hstr
          rw [FieldDef.typeSize, if_pos (Or.inr hstr)] at width
          cases width
        · rw [FieldDef.typeSize, if_pos (Or.inl (MessageParser.type_of_typeDefinition he))] at width
          cases width
      · exact Or.inr ⟨by omega, by omega⟩

theorem walks_of_shapeField (hresolved : m.Resolved) {f : FieldDef} (htyped : Typed m f)
    {fuel q : ℕ} {shape : Shape}
    (h : shapeField m buffer (shapeObject m buffer fuel) f p = .ok (shape, q)) :
    Walks m buffer [f] p shape.regions [] q := by
  have htraced : Traced m buffer [f] p
      ((shapeField m buffer (shapeObject m buffer fuel) f p).map fun r => ([r.1], r.2)) :=
    traced_field (fun hobj => by
      obtain ⟨e, he⟩ := htyped hobj
      exact ⟨e, he, traced_shapeObject buffer hresolved fuel (MsgDef.has_of_typeDefinition he)⟩) p
  rw [h] at htraced
  have hwalk : Walks m buffer [f] p (regionsOf [shape]) [] q := htraced []
  rwa [regionsOf_singleton] at hwalk

theorem ends_of_each (hresolved : m.Resolved) (htyped : ∀ f ∈ todo, Typed m f)
    (h : ∀ before f after, todo = before ++ f :: after → ∀ leaves q,
      Walks m buffer before p leaves [] q → Ends m buffer [f] q) : Ends m buffer todo p := by
  induction todo generalizing p with
  | nil => exact ⟨0, fun h => by cases h⟩
  | cons f todo ih =>
    rw [List.forall_mem_cons] at htyped
    obtain ⟨fuel, hf⟩ := h [] f todo rfl [] p .refl
    cases hfield : shapeField m buffer (shapeObject m buffer fuel) f p with
    | error e =>
      rw [shapeFields, shapes_cons_of_error hfield] at hf
      refine ⟨fuel, ?_⟩
      rw [shapeFields, shapes_cons_of_error hfield]
      exact hf
    | ok r =>
      have hwalk := walks_of_shapeField hresolved htyped.1 hfield
      obtain ⟨fuel', htodo⟩ := ih (p := r.2) htyped.2 fun before g after hsplit leaves q hbefore =>
        h (f :: before) g after (by rw [hsplit]; rfl) _ q ((hwalk.append_right before).trans hbefore)
      have hfield' : shapeField m buffer (shapeObject m buffer (max fuel fuel')) f p = .ok r := by
        rw [shapeField_extends (shapeObject_extends (le_max_left _ _)) f p, hfield]
        rw [hfield]
        exact fun h => by cases h
      refine ⟨max fuel fuel', (prepends_cons todo hfield').left_ne ?_⟩
      rw [shapeFields_extends (le_max_right _ _) htodo]
      exact htodo

theorem checkedWord_ne_outOfFuel (p : ℕ) :
    (atIndex buffer p >>= fun _ => readWord 4 buffer p) ≠ .error .outOfFuel := by
  intro h
  by_cases hp : p < buffer.length
  · rw [atIndex_of_lt hp, ok_bind] at h
    cases (readWord_eq_error h).1
  · rw [atIndex, if_neg hp, error_bind] at h
    cases h

theorem shapeLength_ne_outOfFuel (f : FieldDef) (p : ℕ) :
    shapeLength buffer f p ≠ .error .outOfFuel := by
  intro h
  unfold shapeLength at h
  split_ifs at h
  · rw [← bind_assoc] at h
    change ((atIndex buffer p >>= fun _ => readWord 4 buffer p).map fun n => (n, p + 4)) = _ at h
    exact checkedWord_ne_outOfFuel p (map_eq_error.1 h)
  · cases h

theorem shapes_ne_outOfFuel {α : Type} {step : α → Layout} {items : List α}
    (h : ∀ a ∈ items, ∀ p, step a p ≠ .error .outOfFuel) (p : ℕ) :
    shapes step items p ≠ .error .outOfFuel := by
  induction items generalizing p with
  | nil => exact nofun
  | cons a items ih =>
    rw [List.forall_mem_cons] at h
    intro he
    rcases shapes_cons_eq_error he with ha | ⟨shape, q, -, hitems⟩
    · exact h.1 p ha
    · exact ih h.2 q hitems

theorem shapeField_ne_outOfFuel {object : BaseMsgDef → Layout} {f : FieldDef}
    (hobj : f.type ≠ .object) (p : ℕ) : shapeField m buffer object f p ≠ .error .outOfFuel := by
  have hscalar : ∀ g : FieldDef, g.type ≠ .object → g.arraySize = 0 → ∀ p,
      shapeField m buffer object g p ≠ .error .outOfFuel := by
    intro g hg hsize p
    by_cases hstr : g.type = .string
    · rw [shapeField_string hsize hstr, Ne, map_eq_error]
      exact checkedWord_ne_outOfFuel p
    · obtain ⟨w, -, hw⟩ := exists_typeSize (not_or.2 ⟨hg, hstr⟩)
      rw [shapeField_scalar hsize hw]
      exact nofun
  by_cases hsize : f.arraySize = 0
  · exact hscalar f hobj hsize p
  by_cases hstr : f.type = .string
  · rw [shapeField_array hsize (Or.inr hstr)]
    cases hlen : shapeLength buffer f p with
    | error e =>
      intro he
      rw [error_bind, Except.error.injEq] at he
      exact shapeLength_ne_outOfFuel f p (he ▸ hlen)
    | ok r =>
      rw [ok_bind, Ne, map_eq_error]
      apply shapes_ne_outOfFuel
      intro g hg
      rw [List.eq_of_mem_replicate hg]
      exact hscalar f.element hobj f.arraySize_element
  · obtain ⟨w, -, hw⟩ := exists_typeSize (not_or.2 ⟨hobj, hstr⟩)
    rw [shapeField_numbers hsize hw, Ne, map_eq_error]
    exact shapeLength_ne_outOfFuel f p

theorem ends_of_not_object {f : FieldDef} (hobj : f.type ≠ .object) (p : ℕ) :
    Ends m buffer [f] p := by
  refine ⟨0, shapes_ne_outOfFuel (fun g hg => ?_) p⟩
  rw [List.mem_singleton.1 hg]
  exact shapeField_ne_outOfFuel hobj

theorem ends_of_object {f : FieldDef} {e : BaseMsgDef} (hsize : f.arraySize = 0)
    (he : m.typeDefinition f = .ok e) (h : Ends m buffer e.fields p) : Ends m buffer [f] p := by
  obtain ⟨fuel, hfuel⟩ := h
  refine ⟨fuel + 1, fun hout => ?_⟩
  rcases shapes_cons_eq_error hout with hf | ⟨shape, q, -, hnil⟩
  · rw [shapeField_object hsize he, shapeObject_succ, map_eq_error] at hf
    exact hfuel hf
  · cases hnil

theorem ends_of_array {f : FieldDef} {e : BaseMsgDef} (hresolved : m.Resolved)
    (hsize : f.arraySize ≠ 0) (he : m.typeDefinition f = .ok e)
    (h : ∀ n q, shapeLength buffer f p = .ok (n, q) → ∀ k j leaves q',
      n = k + (j + 1) → Walks m buffer (List.replicate k f.element) q leaves [] q' →
      Ends m buffer e.fields q') : Ends m buffer [f] p := by
  have htype := MessageParser.type_of_typeDefinition he
  cases hlen : shapeLength buffer f p with
  | error fault =>
    refine ⟨0, fun hout => ?_⟩
    rcases shapes_cons_eq_error hout with hf | ⟨shape, q, -, hnil⟩
    · rw [shapeField_array hsize (Or.inl htype), hlen, error_bind, Except.error.injEq] at hf
      exact shapeLength_ne_outOfFuel f p (hf ▸ hlen)
    · cases hnil
  | ok r =>
    have helements : Ends m buffer (List.replicate r.1 f.element) r.2 := by
      apply ends_of_each hresolved
      · intro g hg _
        rw [List.eq_of_mem_replicate hg]
        exact ⟨e, he⟩
      · intro before g after hsplit leaves q hbefore
        obtain ⟨hlength, hall⟩ := List.eq_replicate_iff.1 hsplit.symm
        have hbefore' : before = List.replicate before.length f.element :=
          List.eq_replicate_iff.2 ⟨rfl, fun b hb => hall b (List.mem_append_left _ hb)⟩
        have hg : g = f.element := hall g (List.mem_append_right _ List.mem_cons_self)
        rw [List.length_append, List.length_cons] at hlength
        rw [hbefore'] at hbefore
        rw [hg]
        exact ends_of_object f.arraySize_element he
          (h r.1 r.2 hlen before.length after.length leaves q hlength.symm hbefore)
    obtain ⟨fuel, hfuel⟩ := helements
    refine ⟨fuel, fun hout => ?_⟩
    rcases shapes_cons_eq_error hout with hf | ⟨shape, q, -, hnil⟩
    · rw [shapeField_array hsize (Or.inl htype), hlen, ok_bind, map_eq_error] at hf
      exact hfuel hf
    · cases hnil

/-- The definitions the walk meets, each entered unchecked from the one before it. -/
def Deeper (m : MsgDef) (buffer : Bytes) (offset : ℕ) (e d : {d // Meets m buffer offset d}) :
    Prop := TransGen (SilentEnters m) d.1 e.1

theorem Meets.has {offset : ℕ} {e : BaseMsgDef} (h : Meets m buffer offset e) : m.Has e := by
  rcases h with rfl | ⟨leaves, f, rest, p, -, -, hf⟩
  · exact Or.inl rfl
  · exact MsgDef.has_of_typeDefinition hf

theorem finite_has (m : MsgDef) : {d | m.Has d}.Finite := by
  have hlist := (m.toBaseMsgDef :: m.embeddedDefinitionMap.entries.map Sigma.snd).finite_toSet
  refine hlist.subset ?_
  rintro d (rfl | ⟨key, hkey⟩)
  · exact List.mem_cons_self
  · exact List.mem_cons_of_mem _ (List.mem_map.2 ⟨⟨key, d⟩, AList.mem_lookup_iff.1 hkey, rfl⟩)

/-- Without a circular definition, entering unchecked comes to an end. -/
theorem wellFounded_follows {offset : ℕ}
    (h : ∀ e, Meets m buffer offset e → ¬ Circular m e) : WellFounded (Deeper m buffer offset) := by
  have hfinite : Finite {d // Meets m buffer offset d} :=
    ((finite_has m).subset fun d hd => Meets.has hd).to_subtype
  have htrans : IsTrans _ (Deeper m buffer offset) := ⟨fun a b c hab hbc => TransGen.trans hbc hab⟩
  have hirrefl : Std.Irrefl (Deeper m buffer offset) := ⟨fun a ha => h a.1 a.2 ha⟩
  exact Finite.wellFounded_of_trans_of_irrefl _

/-- An object the walk comes to is laid out in the end: the induction is on the bytes that
are left, and for as many bytes on the definitions entered unchecked. -/
theorem ends_of_meets (hresolved : m.Resolved) {offset : ℕ}
    (hnone : ∀ e, Meets m buffer offset e → ¬ Circular m e) (left : ℕ)
    (e : {d // Meets m buffer offset d}) {leaves : List Region} {rest : List FieldDef} {p : ℕ}
    (hleft : buffer.length - p ≤ left)
    (hwalk : Walks m buffer m.fields offset leaves (e.1.fields ++ rest) p) :
    Ends m buffer e.1.fields p := by
  induction left using Nat.strongRecOn generalizing e leaves rest p with
  | ind left ihLeft =>
  induction e using (wellFounded_follows hnone).induction generalizing leaves rest p with
  | _ e ihEnter =>
  have htyped := e.2.has.typed hresolved
  apply ends_of_each hresolved htyped
  intro before f after hsplit leaves' q hbefore
  have hmem : f ∈ e.1.fields := by
    rw [hsplit]
    exact List.mem_append_right _ List.mem_cons_self
  have hto : Walks m buffer m.fields offset (leaves ++ leaves') (f :: (after ++ rest)) q := by
    rw [hsplit, List.append_assoc] at hwalk
    exact hwalk.trans (hbefore.append_right (f :: (after ++ rest)))
  have hpq := hbefore.le
  by_cases hobj : f.type = .object
  · obtain ⟨d, hd⟩ := htyped f hmem hobj
    -- an object of `d` behind `q` ends when `f` always has a value or bytes were used up
    have hobject : ∀ (g : FieldDef) (leaves rest) (q'), q ≤ q' → g.arraySize = 0 →
        m.typeDefinition g = .ok d → Walks m buffer m.fields offset leaves (g :: rest) q' →
        f.Always ∨ buffer.length - q' < left → Ends m buffer d.fields q' := by
      intro g leaves rest q' hq hsize hg hwalk hcase
      have hmeets : Meets m buffer offset d := Or.inr ⟨leaves, g, rest, q', hwalk, hsize, hg⟩
      have hwalk' := hwalk.trans (.object hsize hg .refl)
      by_cases hless : buffer.length - q' < left
      · exact ihLeft _ hless ⟨d, hmeets⟩ le_rfl hwalk'
      · rcases hbefore.silent_or_reads with hsilent | ⟨hp, hlt⟩
        · have henters : SilentEnters m e.1 d :=
            ⟨before, f, after, hsplit, hsilent, hcase.resolve_right hless, hd⟩
          exact ihEnter ⟨d, hmeets⟩ (TransGen.single henters) (by omega) hwalk'
        · omega
    by_cases hsize : f.arraySize = 0
    · exact ends_of_object hsize hd
        (hobject f _ (after ++ rest) q le_rfl hsize hd hto (Or.inl (Or.inl hsize)))
    · apply ends_of_array hresolved hsize hd
      intro n q₀ hlen k j leaves₀ q' hn hk
      have hle := hk.le
      have hq₀ := le_of_shapeLength hlen
      have harray := hto.trans (.array hsize (Or.inl hobj) hlen .refl)
      rw [hn, List.replicate_add, List.replicate_succ, List.append_assoc (List.replicate k f.element),
        List.cons_append] at harray
      have helements := hk.append_right
        (f.element :: (List.replicate j f.element ++ (after ++ rest)))
      refine hobject f.element _ _ q' (by omega) rfl hd (harray.trans helements) ?_
      rcases shapeLength_eq_ok hlen with ⟨-, hq, rfl⟩ | ⟨hfixed, hcount, -⟩
      · exact Or.inr (by omega)
      · exact Or.inl (Or.inr ⟨hfixed, by omega⟩)
  · exact ends_of_not_object hobj q

theorem resolved_of_parseMsgDef {text name : Bytes} (h : parseMsgDef text name = .ok m) :
    m.Resolved := by
  unfold parseMsgDef at h
  cases hinfo : parseInfo text with
  | error e =>
    rw [hinfo] at h
    cases h
  | ok info =>
    rw [hinfo, ok_bind] at h
    exact (MsgDef.builtFrom_of_ofInfo h).resolved

section Parse

variable {text name : Bytes}

/-- The parser comes to an end exactly when the walk comes to no circular definition. -/
theorem exists_ne_outOfFuel_iff (hm : parseMsgDef text name = .ok m) (buffer : Bytes) (offset : ℕ) :
    (∃ fuel, (MessageParser.mk buffer m).parse offset fuel ≠ .error .outOfFuel) ↔
      ∀ e, Meets m buffer offset e → ¬ Circular m e := by
  have hresolved := resolved_of_parseMsgDef hm
  have hfollows := MessageParser.parse_follows (p := ⟨buffer, m⟩) hresolved offset
  constructor
  · rintro ⟨fuel, hfuel⟩ e hmeets hcircular
    rw [Ne, (hfollows fuel).error_iff] at hfuel
    change shapeObject m buffer fuel m.toBaseMsgDef offset ≠ _ at hfuel
    have hstuck := hcircular.stuck buffer hresolved hmeets.has
    rcases hmeets with rfl | ⟨leaves, f, rest, p, hwalk, hsize, hf⟩
    · exact hfuel (hstuck fuel offset)
    · cases fuel with
      | zero => exact hfuel rfl
      | succ fuel =>
        rw [shapeObject_succ, Ne, map_eq_error] at hfuel
        obtain ⟨fuel', hends⟩ := hwalk.ends ⟨fuel, hfuel⟩
        apply hends
        apply shapes_cons_of_error
        rw [shapeField_object hsize hf, hstuck]
  · intro hnone
    have htop : Meets m buffer offset m.toBaseMsgDef := Or.inl rfl
    have hwalk : Walks m buffer m.fields offset [] (m.fields ++ []) offset := by
      rw [List.append_nil]
      exact .refl
    obtain ⟨fuel, hfuel⟩ := ends_of_meets hresolved hnone _ ⟨m.toBaseMsgDef, htop⟩ le_rfl hwalk
    refine ⟨fuel + 1, fun he => hfuel ?_⟩
    have hshape := ((hfollows (fuel + 1)).error_iff _).1 he
    rw [shapeObject_succ, map_eq_error] at hshape
    exact hshape

/-- The parser reads behind the buffer exactly when the walk comes to a length word the buffer ends in. -/
theorem exists_undefined_iff (hm : parseMsgDef text name = .ok m) (buffer : Bytes) (offset : ℕ) :
    (∃ fuel, (MessageParser.mk buffer m).parse offset fuel = .error .undefined) ↔
      ComesToTornWord m buffer m.fields offset := by
  have hresolved := resolved_of_parseMsgDef hm
  have hfollows := MessageParser.parse_follows (p := ⟨buffer, m⟩) hresolved offset
  constructor
  · rintro ⟨fuel, hundefined⟩
    have htraced := traced_shapeObject buffer hresolved fuel (Or.inl rfl) offset
    rw [((hfollows fuel).error_iff _).1 hundefined] at htraced
    have htorn := htraced.torn rfl []
    rwa [List.append_nil] at htorn
  · intro htorn
    obtain ⟨fuel, hfuel⟩ := htorn.undefined
    refine ⟨fuel + 1, ((hfollows (fuel + 1)).error_iff _).2 ?_⟩
    change shapeObject m buffer (fuel + 1) m.toBaseMsgDef offset = _
    rw [shapeObject_succ, map_eq_error]
    exact hfuel

theorem parse_error_unique (hm : parseMsgDef text name = .ok m) {offset fuel fuel' : ℕ} {e : Fault}
    (h : (MessageParser.mk buffer m).parse offset fuel = .error e) (he : e ≠ .outOfFuel)
    (h' : (MessageParser.mk buffer m).parse offset fuel' ≠ .error .outOfFuel) :
    (MessageParser.mk buffer m).parse offset fuel' = .error e := by
  have hresolved := resolved_of_parseMsgDef hm
  have hfollows := MessageParser.parse_follows (p := ⟨buffer, m⟩) hresolved offset
  rw [Ne, (hfollows fuel').error_iff] at h'
  rw [(hfollows fuel).error_iff] at h
  rw [(hfollows fuel').error_iff]
  have hne : shapeObject m buffer fuel m.toBaseMsgDef offset ≠ .error .outOfFuel := by
    rw [show shapeObject m buffer fuel m.toBaseMsgDef offset = _ from h]
    exact fun heq => he (Except.error.inj heq)
  have hmax := shapeObject_extends (le_max_left fuel fuel') m.toBaseMsgDef offset hne
  have hmax' := shapeObject_extends (le_max_right fuel fuel') m.toBaseMsgDef offset h'
  exact hmax'.symm.trans (hmax.trans h)

end Parse

/-- With a recursion bound that is enough, parsing returns or throws. -/
def MessageParser.ReturnsOrThrows (p : MessageParser) (offset : ℕ) : Prop :=
  ∃ fuel, (∃ s, p.parse offset fuel = .ok s) ∨ ∃ e, p.parse offset fuel = .error e ∧ e.thrown = true

/-- Parsing returns or throws exactly when the walk comes to no circular definition, and to no
length word that the buffer ends in. -/
theorem parse_ends_iff {text name : Bytes} {m : MsgDef} (hm : parseMsgDef text name = .ok m)
    (buffer : Bytes) (offset : ℕ) : (MessageParser.mk buffer m).ReturnsOrThrows offset ↔
      (∀ e, Meets m buffer offset e → ¬ Circular m e) ∧ ¬ ComesToTornWord m buffer m.fields offset := by
  rw [← exists_ne_outOfFuel_iff hm, ← exists_undefined_iff hm]
  constructor
  · rintro ⟨fuel, hfuel⟩
    have hne : (MessageParser.mk buffer m).parse offset fuel ≠ .error .outOfFuel ∧
        (MessageParser.mk buffer m).parse offset fuel ≠ .error .undefined := by
      rcases hfuel with ⟨s, hs⟩ | ⟨e, he, hthrown⟩
      · rw [hs]
        exact ⟨nofun, nofun⟩
      · rw [he]
        constructor <;> rintro ⟨⟩ <;> cases hthrown
    refine ⟨⟨fuel, hne.1⟩, fun ⟨fuel', hundefined⟩ => hne.2 ?_⟩
    exact parse_error_unique hm hundefined (fun heq => by cases heq) hne.1
  · rintro ⟨⟨fuel, hends⟩, hinside⟩
    refine ⟨fuel, ?_⟩
    rcases hparse : (MessageParser.mk buffer m).parse offset fuel with e | s
    · refine .inr ⟨e, rfl, ?_⟩
      cases e with
      | outOfRange => rfl
      | runtimeError => rfl
      | undefined => exact absurd ⟨fuel, hparse⟩ hinside
      | outOfFuel => exact absurd hparse hends
    · exact .inl ⟨s, rfl⟩

def sampleNodeText : Bytes :=
  bytes "Node next\n" ++ List.replicate 80 61 ++ bytes "\nMSG: pkg/Node\nNode next\n"

def sampleNodeDef : BaseMsgDef := ⟨bytes "pkg/Node",
  [.field { parsedInfo := ⟨bytes "Node", 0, bytes "next"⟩, typeDefinition := some (bytes "pkg/Node") }]⟩

def sampleNode : MsgDef where
  name := bytes "pkg/Top"
  members := sampleNodeDef.members
  embeddedDefinitionMap := .singleton (bytes "pkg/Node") sampleNodeDef

theorem parseInfo_sampleNodeText : parseInfo sampleNodeText =
    .ok ⟨[.field ⟨bytes "Node", 0, bytes "next"⟩],
      [⟨bytes "pkg/Node", [.field ⟨bytes "Node", 0, bytes "next"⟩]⟩]⟩ := by
  decide +kernel

theorem parseMsgDef_sampleNodeText :
    parseMsgDef sampleNodeText (bytes "pkg/Top") = .ok sampleNode := by
  rw [parseMsgDef, parseInfo_sampleNodeText]
  rfl

theorem parse_ends_iff_sampleNode : (MessageParser.mk [] sampleNode).ReturnsOrThrows 0 ↔
    (∀ e, Meets sampleNode [] 0 e → ¬ Circular sampleNode e) ∧
      ¬ ComesToTornWord sampleNode [] sampleNode.fields 0 :=
  parse_ends_iff parseMsgDef_sampleNodeText [] 0

/-- The accepted text whose messages are parsed without end, whatever the recursion bound. -/
theorem parse_sampleNode : parseMsgDef sampleNodeText (bytes "pkg/Top") = .ok sampleNode ∧
    ∀ fuel, (MessageParser.mk [] sampleNode).parse 0 fuel = .error .outOfFuel := by
  refine ⟨parseMsgDef_sampleNodeText, fun fuel => ?_⟩
  have hresolved := resolved_of_parseMsgDef parseMsgDef_sampleNodeText
  have hlookup : sampleNode.embeddedDefinitionMap.lookup (bytes "pkg/Node") = some sampleNodeDef :=
    rfl
  have hcircular : Circular sampleNode sampleNodeDef :=
    TransGen.single ⟨[], _, [], rfl, nofun, Or.inl rfl, rfl⟩
  rw [(MessageParser.parse_follows hresolved 0 fuel).error_iff]
  cases fuel with
  | zero => rfl
  | succ fuel =>
    rw [shapeObject_succ, map_eq_error]
    apply shapes_cons_of_error
    rw [shapeField_object (d := sampleNodeDef) rfl rfl]
    exact hcircular.stuck _ hresolved (Or.inr ⟨_, hlookup⟩) fuel 0

end Embag
