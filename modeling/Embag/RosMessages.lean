import Embag.MessageIndices
import Embag.MessageTexts
import Embag.View

/-! A `RosMessage` parses its data when it is first asked for them. Whatever is called on it, and in
whatever order, it answers with the values that were written. -/

namespace Embag

open LittleEndian Loops

def RosValue.has (key : Bytes) : RosValue → Except Fault Bool
  | object _ fieldIndexes => .ok (key ∈ fieldIndexes)
  | _ => .error (.runtimeError (bytes "Value is not an object"))

/-- A `RosMessage` with `data_`, which is there once `parsed_` is set: the vector it points into. -/
structure MessageObject where
  message : RosMessage
  data : Option (List RosValue) := none

inductive MessageCall where
  | data
  | has (key : Bytes)
  | toString
  | print
  | getTypeName
  deriving DecidableEq

/-- What a call returns, or prints to the standard output. -/
inductive MessageReply where
  | data (values : List RosValue)
  | has (found : Bool)
  | text (text : Bytes)
  | printed (text : Bytes)
  | typeName (name : Bytes)
  deriving DecidableEq

/-- The vector that `hydrate` makes of the message; a null pointer is no definition and no buffer. -/
def RosMessage.parse (fuel : ℕ) (message : RosMessage) : Except Fault (List RosValue) :=
  match message.msgDef, message.rawBuffer with
  | some m, some buffer => do
    return (← MessageParser.parse ⟨buffer, m⟩ message.rawBufferOffset fuel).rosValues
  | _, _ => .error .undefined

/-- What a call makes of the parsed data. -/
def MessageCall.answer (env : TextEnv) (fuel : ℕ) (message : RosMessage)
    (data : Except Fault (List RosValue)) : MessageCall → Except Fault MessageReply
  | .data => do return .data (← data)
  | .has key => do
    let values ← data
    return .has (← (← (Pointer.slot 0).deref values).has key)
  | .toString => do
    let values ← data
    return .text (← (← (Pointer.slot 0).deref values).toString env values fuel [])
  | .print => do
    let values ← data
    return .printed (← (← (Pointer.slot 0).deref values).toString env values fuel [])
  | .getTypeName =>
    match message.msgDef with
    | some m => .ok (.typeName m.name)
    | none => .error .undefined

namespace MessageObject

/-- `hydrate`, unless the data are there -/
def hydrate (fuel : ℕ) (s : MessageObject) : MessageObject × Except Fault (List RosValue) :=
  match s.data with
  | some values => (s, .ok values)
  | none =>
    match s.message.parse fuel with
    | .ok values => ({ s with data := some values }, .ok values)
    | .error e => (s, .error e)

def call (env : TextEnv) (fuel : ℕ) (s : MessageObject) (c : MessageCall) :
    MessageObject × Except Fault MessageReply :=
  if c = .getTypeName then (s, c.answer env fuel s.message (.error .undefined))
  else
    let (s, data) := s.hydrate fuel
    (s, c.answer env fuel s.message data)

def replies (env : TextEnv) (fuel : ℕ) : MessageObject → List MessageCall → List (Except Fault MessageReply)
  | _, [] => []
  | s, c :: cs => (s.call env fuel c).2 :: replies env fuel (s.call env fuel c).1 cs

/-- What a message has kept is what parsing it gives. -/
def Sound (fuel : ℕ) (s : MessageObject) : Prop := ∀ values, s.data = some values → s.message.parse fuel = .ok values

variable {env : TextEnv} {fuel : ℕ} {s : MessageObject}

theorem Sound.hydrate (h : s.Sound fuel) :
    (s.hydrate fuel).2 = s.message.parse fuel ∧ (s.hydrate fuel).1.message = s.message ∧
      (s.hydrate fuel).1.Sound fuel := by
  unfold MessageObject.hydrate
  rcases hdata : s.data with _ | values
  · rcases hparse : s.message.parse fuel with e | values
    · exact ⟨rfl, rfl, h⟩
    · refine ⟨rfl, rfl, fun values' heq => ?_⟩
      cases heq
      exact hparse
  · exact ⟨(h values hdata).symm, rfl, h⟩

/-- A call has the answer that it has on a new message, and keeps the rest. -/
theorem Sound.call (h : s.Sound fuel) (env : TextEnv) (c : MessageCall) :
    (s.call env fuel c).2 = c.answer env fuel s.message (s.message.parse fuel) ∧
      (s.call env fuel c).1.message = s.message ∧ (s.call env fuel c).1.Sound fuel := by
  obtain ⟨hparse, hmessage, hsound⟩ := h.hydrate
  unfold MessageObject.call
  split_ifs with hc
  · subst hc
    exact ⟨rfl, rfl, h⟩
  · refine ⟨?_, hmessage, hsound⟩
    show c.answer env fuel (s.hydrate fuel).1.message (s.hydrate fuel).2 = _
    rw [hparse, hmessage]

theorem Sound.replies (h : s.Sound fuel) (env : TextEnv) (cs : List MessageCall) :
    s.replies env fuel cs = cs.map fun c => c.answer env fuel s.message (s.message.parse fuel) := by
  induction cs generalizing s with
  | nil => rfl
  | cons c cs ih =>
    obtain ⟨hreply, hmessage, hsound⟩ := h.call env c
    rw [MessageObject.replies, hreply, ih hsound, hmessage, List.map_cons]

end MessageObject

/-- The message is one of the definition `m` and has the values `vs`. -/
structure RosMessage.Holds (message : RosMessage) (m : MsgDef) (vs : List Value) : Prop where
  msgDef : message.msgDef = some m
  rawBuffer : ∃ buffer, message.rawBuffer = some buffer ∧ OccursAt (encodeList vs) buffer message.rawBufferOffset
  values : IsMessage m m.toBaseMsgDef vs

/-- What a call has to answer for these values, where the data are at `values`. -/
def MessageCall.meaning (env : TextEnv) (m : MsgDef) (vs : List Value) (values : List RosValue) :
    MessageCall → MessageReply
  | .data => .data values
  | .has key => .has ((m.fields.map FieldDef.name).contains key)
  | .toString => .text (messageText env m vs)
  | .print => .printed (messageText env m vs)
  | .getTypeName => .typeName m.name

theorem BaseMsgDef.mem_fieldIndexes {d : BaseMsgDef} {key : Bytes} :
    key ∈ d.fieldIndexes ↔ key ∈ d.fields.map FieldDef.name := by
  have hfold : ∀ (fields : List FieldDef) (n : ℕ) (map : FieldIndexes),
      key ∈ (fields.zipIdx n).foldl (fun map entry => emplace map entry.1.name entry.2) map ↔
        key ∈ map ∨ key ∈ fields.map FieldDef.name := by
    intro fields
    induction fields with
    | nil => intro n map; simp
    | cons f fields ih =>
      intro n map
      rw [List.zipIdx_cons, List.foldl_cons, ih, mem_emplace, List.map_cons, List.mem_cons]
      tauto
  have hempty : key ∉ (∅ : FieldIndexes) := AList.notMem_empty key
  rw [fieldIndexes, hfold]
  exact or_iff_right hempty

section Values

variable {env : TextEnv} {m : MsgDef} {vs : List Value} {message : RosMessage}

theorem RosMessage.Holds.exists_values (env : TextEnv) (h : message.Holds m vs) (hresolved : m.Resolved)
    (hdist : m.DistinctFields) {fuel : ℕ} (hdepth : depthList vs < fuel) (hheight : heightList vs < fuel) :
    ∃ values, message.parse fuel = .ok values ∧
      (∀ path w, (Value.object (m.fields.map FieldDef.name) vs).follow path = some w →
        ∃ x, (Pointer.slot 0).follow values path = .ok x ∧ x.Reads w) ∧
      ∀ c : MessageCall, c.answer env fuel message (.ok values) = .ok (c.meaning env m vs values) := by
  obtain ⟨buffer, hbuffer, hocc⟩ := h.rawBuffer
  obtain ⟨s, c, hs, hroot, hfields⟩ :=
    MessageParser.exists_parsed (p := ⟨buffer, m⟩) hresolved h.values hdepth hocc
  obtain ⟨s', hs', -, low, x, hx, hd⟩ :=
    MessageParser.parse_inits (p := ⟨buffer, m⟩) hresolved hdist h.values hdepth hocc
  rw [hs] at hs'
  cases hs'
  have htext : (RosValue.object ⟨c, vs.length⟩ m.fieldIndexes).toString env s.rosValues fuel [] =
      .ok (messageText env m vs) := hfields.toString_eq hheight
  have hparse : message.parse fuel = .ok s.rosValues := by
    simp only [RosMessage.parse, h.msgDef, hbuffer, hs]
    rfl
  refine ⟨s.rosValues, hparse, fun path w hw => hd.follow (deref_slot hx) hw, fun call => ?_⟩
  cases call with
  | data => rfl
  | has key =>
    have hkey : decide (key ∈ m.fieldIndexes) = (m.fields.map FieldDef.name).contains key := by
      rw [Bool.eq_iff_iff, decide_eq_true_iff, List.contains_iff_mem, BaseMsgDef.mem_fieldIndexes]
    simp only [MessageCall.answer, MessageCall.meaning, ok_bind, deref_slot hroot, RosValue.has, hkey]
    rfl
  | toString =>
    simp only [MessageCall.answer, ok_bind, deref_slot hroot, htext]
    rfl
  | print =>
    simp only [MessageCall.answer, ok_bind, deref_slot hroot, htext]
    rfl
  | getTypeName => simp only [MessageCall.answer, h.msgDef, MessageCall.meaning]

end Values

/-- A message is parsed when it is first asked for its data, and every call that is made on it, in any
order and any number of times, answers with the values that were written. -/
theorem MessageObject.replies_of_values {message : RosMessage} {m : MsgDef} {vs : List Value}
    (h : message.Holds m vs) (hresolved : m.Resolved) (hdist : m.DistinctFields) (env : TextEnv) :
    ∃ bound, ∀ fuel ≥ bound, ∃ values,
      (∀ path w, (Value.object (m.fields.map FieldDef.name) vs).follow path = some w →
        ∃ x, (Pointer.slot 0).follow values path = .ok x ∧ x.Reads w) ∧
      ∀ cs : List MessageCall, (MessageObject.mk message none).replies env fuel cs =
        cs.map fun c => .ok (c.meaning env m vs values) := by
  refine ⟨depthList vs + heightList vs + 1, fun fuel hfuel => ?_⟩
  obtain ⟨values, hparse, hpaths, hanswers⟩ :=
    h.exists_values env hresolved hdist (show depthList vs < fuel by omega) (by omega)
  have hnew : (MessageObject.mk message none).Sound fuel := fun values hvalues => by cases hvalues
  refine ⟨values, hpaths, fun cs => ?_⟩
  rw [hnew.replies env cs]
  refine List.map_congr_left fun c _ => ?_
  rw [hparse, hanswers c]

/-- A message behind another record of its chunk. -/
def samplePathMessage : RosMessage where
  topic := bytes "/path"
  timestamp := ⟨1, 2⟩
  md5 := bytes "0"
  rawBuffer := some ([1, 2] ++ encodeList samplePathValues ++ [3])
  rawBufferOffset := 2
  rawDataLen := 15
  msgDef := some samplePath

theorem distinctFields_samplePath : samplePath.DistinctFields := by
  intro d hd
  rcases samplePath_definitions hd with rfl | rfl <;> decide

theorem MessageObject.replies_of_values_sample : ∃ bound, ∀ fuel ≥ bound, ∃ values,
    (∀ path w, (Value.object (samplePath.fields.map FieldDef.name) samplePathValues).follow path = some w →
      ∃ x, (Pointer.slot 0).follow values path = .ok x ∧ x.Reads w) ∧
    ∀ cs : List MessageCall, (MessageObject.mk samplePathMessage none).replies sampleTextEnv fuel cs =
      cs.map fun c => .ok (c.meaning sampleTextEnv samplePath samplePathValues values) := by
  refine MessageObject.replies_of_values ⟨rfl, ⟨_, rfl, occursAt_of_append [1, 2] _ [3]⟩,
    isMessage_samplePathValues⟩ ?_ distinctFields_samplePath sampleTextEnv
  intro d hd f hf htype
  have hdef : ∀ f ∈ d.fields, f.type = .object → samplePath.typeDefinition f = .ok samplePoint := by
    rcases samplePath_definitions hd with rfl | rfl <;> decide
  exact ⟨_, hdef f hf htype⟩

end Embag
