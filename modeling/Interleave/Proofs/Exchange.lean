/-
# The exchange form loses nothing

What a value is written as reads back as this value, for every serializable type.
So no two values are written alike, and a value read from data that was written in
another way (fields in another order, further fields, a list in place of a record)
keeps its meaning when it is written again. A record is read by the names of its
fields only.

The law (`Data.Lossless`) is proved once for words, texts, lists and records, and
carried through the types as they are built from these (`Data.exchange_lossless`).
-/
import Interleave.Data.Codec
import Mathlib.Logic.Function.Basic

namespace Interleave

namespace Data

variable {α : Type} {encode : α → Data} {decode : Data → Option α}

/-- Nothing is lost on the way from a value to data and back. -/
structure Lossless (encode : α → Data) (decode : Data → Option α) : Prop where
  decode_encode : ∀ v, decode (encode v) = some v
  /-- Whatever data the value was read from. -/
  decode_again : ∀ d v, decode d = some v → decode (encode v) = some v
  injective : Function.Injective encode

theorem Lossless.of (h : ∀ v, decode (encode v) = some v) : Lossless encode decode where
  decode_encode := h
  decode_again _ v _ := h v
  injective v v' heq := Option.some.inj ((h v).symm.trans ((congrArg decode heq).trans (h v')))

/-- Of a record, `decode` looks at the fields of these names only. -/
def ReadsOnly (names : List String) (decode : Data → Option α) : Prop :=
  ∀ fields fields', (∀ name ∈ names, field fields name = field fields' name) →
    decode (.record fields) = decode (.record fields')

/-! ### Words, texts and lists -/

@[simp] theorem natural_nat {bound n : Nat} (h : n < bound) : (nat n).natural bound = some n := by
  simp [nat, natural, h]

@[simp] theorem word64_nat (w : UInt64) : (nat w.toNat).word64 = some w := by
  rw [word64, natural_nat w.toNat_lt]
  simp

@[simp] theorem word32_nat (w : UInt32) : (nat w.toNat).word32 = some w := by
  rw [word32, natural_nat w.toNat_lt]
  simp

@[simp] theorem string_text (s : String) : (text s).string = some s := rfl

theorem listOf_map (h : ∀ v, decode (encode v) = some v) (l : List α) :
    (list (l.map encode)).listOf decode = some l := by
  show (l.map encode).mapM decode = some l
  induction l with
  | nil => rfl
  | cons v l ih => simp [h, ih]

/-! ### Records -/

@[simp] theorem field_cons (name name' : String) (d : Data) (fields : List (String × Data)) :
    field ((name, d) :: fields) name' = if name = name' then some d else field fields name' := by
  by_cases h : name = name' <;> simp [field, h]

theorem mapM_field_congr {fields fields' : List (String × Data)} : ∀ {names : List String},
    (∀ name ∈ names, field fields name = field fields' name) →
    names.mapM (field fields) = names.mapM (field fields')
  | [], _ => rfl
  | name :: names, h => by
    rw [List.mapM_cons, List.mapM_cons, h name List.mem_cons_self,
      mapM_field_congr fun other hother => h other (List.mem_cons_of_mem _ hother)]

theorem fieldsOf_congr {names : List String} {fields fields' : List (String × Data)}
    (h : ∀ name ∈ names, field fields name = field fields' name) :
    (record fields).fieldsOf names = (record fields').fieldsOf names := mapM_field_congr h

theorem variantFields_congr {names : List String} {fields fields' : List (String × Data)}
    (h : ∀ name ∈ names, field fields name = field fields' name) :
    variantFields names (some (record fields)) = variantFields names (some (record fields')) :=
  mapM_field_congr h

end Data

/-! ### Reading back what was written -/

@[simp] theorem NodeId.decode_encode (v : NodeId) : decode v.encode = some v := by
  simp [encode, decode, index]

@[simp] theorem TaskId.decode_encode (t : TaskId) : decode t.encode = some t := by
  simp [encode, decode, number]

@[simp] theorem MessageId.decode_encode (m : MessageId) : decode m.encode = some m := by
  simp [encode, decode, number]

theorem Clock.decode_encode (c : Clock) : decode c.encode = some c := by
  simp [encode, decode, Data.fieldsOf, Data.listOf_map Data.word64_nat]

theorem Recovery.decode_encode (r : Recovery) : decode r.encode = some r := by cases r <;> rfl

theorem DeliveryOrder.decode_encode (o : DeliveryOrder) : decode o.encode = some o := by cases o <;> rfl

theorem SplitMode.decode_encode (m : SplitMode) : decode m.encode = some m := by cases m <;> rfl

theorem Operation.decode_encode (o : Operation) : decode o.encode = some o := by
  simp [encode, decode, Data.fieldsOf, Data.listOf_map Data.string_text]

theorem Scenario.decode_encode (s : Scenario) : decode s.encode = some s := by
  have hnode : ∀ l : List Operation,
      (Data.list (l.map Operation.encode)).listOf Operation.decode = some l :=
    Data.listOf_map Operation.decode_encode
  simp [encode, decode, Data.fieldsOf, Data.listOf_map hnode]

@[simp] theorem Answer.decode_encode (a : Answer) : decode a.encode = some a := by cases a <;> rfl

@[simp] theorem Event.decode_encode (e : Event) : decode e.encode = some e := by
  cases e with
  | started index operation => simp [encode, decode, decodeStarted, Data.variantOf, Data.variantFields]
  | finished index result => simp [encode, decode, decodeFinished, Data.variantOf, Data.variantFields]
  | sent id target message => simp [encode, decode, decodeSent, Data.variantOf, Data.variantFields]
  | received id sender message =>
    simp [encode, decode, decodeReceived, Data.variantOf, Data.variantFields]
  | lost id target => simp [encode, decode, decodeLost, Data.variantOf, Data.variantFields]
  | noted message => rfl
  | crashed => rfl
  | recovered => rfl
  | partitioned description => rfl
  | healed description => rfl
  | closed => rfl

theorem Occurrence.decode_encode (e : Occurrence) : decode e.encode = some e := by
  simp [encode, decode, Data.fieldsOf]

/-! ### Fields that are looked at -/

theorem Clock.readsOnly : Data.ReadsOnly ["clocks"] decode := fun _ _ h => by
  unfold decode
  rw [Data.fieldsOf_congr h]

theorem Operation.readsOnly : Data.ReadsOnly ["name", "args", "handled_errors"] decode := fun _ _ h => by
  unfold decode
  rw [Data.fieldsOf_congr h]

theorem Scenario.readsOnly : Data.ReadsOnly ["operations"] decode := fun _ _ h => by
  unfold decode
  rw [Data.fieldsOf_congr h]

theorem Occurrence.readsOnly : Data.ReadsOnly ["node", "event"] decode := fun _ _ h => by
  unfold decode
  rw [Data.fieldsOf_congr h]

namespace Event

/-- The kinds of event that carry data, and the names of its fields. -/
def fieldNames : List (String × List String) :=
  [("OperationStarted", ["index", "operation"]), ("OperationFinished", ["index", "result"]),
    ("MessageSent", ["id", "to", "message"]), ("MessageReceived", ["id", "from", "message"]),
    ("MessageLost", ["id", "to"]), ("InternalEvent", ["message"]),
    ("NetworkPartitioned", ["description"]), ("PartitionHealed", ["description"])]

theorem readsOnly : ∀ kind ∈ fieldNames,
    Data.ReadsOnly kind.2 fun content => decode (.record [(kind.1, content)]) := by
  simp only [fieldNames, List.forall_mem_cons]
  refine ⟨fun _ _ h => ?_, fun _ _ h => ?_, fun _ _ h => ?_, fun _ _ h => ?_, fun _ _ h => ?_,
    fun _ _ h => ?_, fun _ _ h => ?_, fun _ _ h => ?_, by simp⟩
  · show decodeStarted _ = decodeStarted _
    unfold decodeStarted
    rw [Data.variantFields_congr h]
  · show decodeFinished _ = decodeFinished _
    unfold decodeFinished
    rw [Data.variantFields_congr h]
  · show decodeSent _ = decodeSent _
    unfold decodeSent
    rw [Data.variantFields_congr h]
  · show decodeReceived _ = decodeReceived _
    unfold decodeReceived
    rw [Data.variantFields_congr h]
  · show decodeLost _ = decodeLost _
    unfold decodeLost
    rw [Data.variantFields_congr h]
  all_goals
    show decodeText _ _ _ = decodeText _ _ _
    unfold decodeText
    rw [Data.variantFields_congr h]

end Event

/-- **Every serializable value survives the exchange form**, and so does what is read from data in
another form: fields of other names are not looked at. -/
theorem Data.exchange_lossless :
    Lossless NodeId.encode NodeId.decode ∧ Lossless TaskId.encode TaskId.decode ∧
    Lossless MessageId.encode MessageId.decode ∧ Lossless Clock.encode Clock.decode ∧
    Lossless Recovery.encode Recovery.decode ∧ Lossless DeliveryOrder.encode DeliveryOrder.decode ∧
    Lossless SplitMode.encode SplitMode.decode ∧ Lossless Operation.encode Operation.decode ∧
    Lossless Scenario.encode Scenario.decode ∧ Lossless Answer.encode Answer.decode ∧
    Lossless Event.encode Event.decode ∧ Lossless Occurrence.encode Occurrence.decode ∧
    ReadsOnly ["clocks"] Clock.decode ∧
    ReadsOnly ["name", "args", "handled_errors"] Operation.decode ∧
    ReadsOnly ["operations"] Scenario.decode ∧ ReadsOnly ["node", "event"] Occurrence.decode ∧
    ∀ kind ∈ Event.fieldNames, ReadsOnly kind.2 fun content => Event.decode (.record [(kind.1, content)]) :=
  ⟨.of NodeId.decode_encode, .of TaskId.decode_encode, .of MessageId.decode_encode,
    .of Clock.decode_encode, .of Recovery.decode_encode, .of DeliveryOrder.decode_encode,
    .of SplitMode.decode_encode, .of Operation.decode_encode, .of Scenario.decode_encode,
    .of Answer.decode_encode, .of Event.decode_encode, .of Occurrence.decode_encode,
    Clock.readsOnly, Operation.readsOnly, Scenario.readsOnly, Occurrence.readsOnly, Event.readsOnly⟩

/-- The fields stand in another order, with one that is not known. -/
example : Event.decode (.record [("MessageLost",
    .record [("to", .nat 1), ("note", .null), ("id", .nat 7)])]) = some (.lost ⟨7⟩ ⟨1⟩) := rfl

end Interleave
