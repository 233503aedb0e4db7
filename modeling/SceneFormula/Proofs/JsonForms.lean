import SceneFormula.Json.Form
import SceneFormula.Proofs.JsonTexts

/-! JSON forms read back. Writing a value and reading it gives the value again, but for a parameter
kind that is known and yet told as any other name. Nothing that was read is of that sort, so that
reading and writing settle at once, in whatever shape a text was given. -/
namespace SceneFormula

namespace ParameterKind

/-- The kind is not told as another name where that name is known. -/
def Proper (kind : ParameterKind) : Prop :=
  ∀ name, kind = other name → name ∉ known.map ParameterKind.name

theorem proper_ofName (name : String) : (ofName name).Proper := by
  intro own ho hk
  obtain rfl : name = own := by rw [← name_ofName name, ho, ParameterKind.name]
  cases hf : known.find? (·.name == name) with
  | none =>
    obtain ⟨kind, hkind, hname⟩ := List.mem_map.mp hk
    exact List.find?_eq_none.mp hf kind hkind (beq_iff_eq.mpr hname)
  | some kind =>
    obtain rfl : kind = other name := by rwa [ofName, hf] at ho
    have hnot : other name ∉ known := by simp [known]
    exact hnot (List.mem_of_find?_eq_some hf)

/-- A kind is the one of its name if and only if it is proper. -/
theorem ofName_name_iff {kind : ParameterKind} : ofName kind.name = kind ↔ kind.Proper := by
  constructor
  · intro h
    exact h ▸ proper_ofName kind.name
  · intro h
    cases kind with
    | other name =>
      have hnone : known.find? (·.name == name) = none :=
        List.find?_eq_none.mpr fun kind hkind he =>
          h name rfl (List.mem_map.mpr ⟨kind, hkind, beq_iff_eq.mp he⟩)
      change (known.find? (·.name == name)).getD (other name) = other name
      rw [hnone]
      rfl
    | expression | text | layer | color | file | joyaxis | object | automatism => rfl

end ParameterKind

namespace Json

theorem plain_ofText (text : String) : (ofText text).Plain :=
  fun _ h => StringUnit.proper_of_mem_ofText h

@[simp] theorem asText?_ofText (text : String) : (ofText text).asText? = some text := by
  rw [ofText, asText?, StringUnit.text?_ofText, Option.map_some, String.ofList_toList]

theorem plain_ofNat (n : Nat) : (ofNat n).Plain :=
  ⟨n, rfl⟩

@[simp] theorem asNat?_ofNat (n : Nat) : (ofNat n).asNat? = some n := by
  have hall : (Source.digits n).all Char.isDigit = true :=
    List.all_eq_true.mpr fun c => Source.isDigit_of_mem_digits
  rw [ofNat, asNat?, if_pos hall, Source.digitsValue_digits]

theorem plain_record {members : List (String × Json)} (h : ∀ member ∈ members, member.2.Plain) :
    (record members).Plain := by
  refine membersPlain_iff.mpr fun member hm => ?_
  obtain ⟨own, ho, rfl⟩ := List.mem_map.mp hm
  exact ⟨fun _ hu => StringUnit.proper_of_mem_ofText hu, h own ho⟩

/-- The fields of an object of two are those that it was made of. -/
theorem fields?_record {first second : String} (h : first ≠ second) (value other : Json) :
    (record [(first, value), (second, other)]).fields? [first, second] =
      some [some value, some other] := by
  have hne : (second.toList == first.toList) = false :=
    beq_eq_false_iff_ne.mpr fun he => h (String.toList_inj.mp he).symm
  have hen : (first.toList == second.toList) = false :=
    beq_eq_false_iff_ne.mpr fun he => h (String.toList_inj.mp he)
  simp [record, fields?, hne, hen]

end Json

namespace JsonForm

/-- A type whose values are read back from what they are encoded as if they are sound, and of which
nothing else is ever read. -/
structure Faithful (α : Type) [JsonForm α] (sound : α → Prop) : Prop where
  plain (value : α) : (encode value).Plain
  decode_encode (value : α) : decode? (encode value) = some value ↔ sound value
  sound_of_decode {json : Json} {value : α} (h : decode? json = some value) : sound value

/-- Sound values are given back by the text that they are written as. What is read from a text is
sound, so that it is given back too, and what it is written as is then written again. -/
structure Settles (α : Type) [JsonForm α] (sound : α → Prop) : Prop where
  read_write (value : α) : read? (write value) = some value ↔ sound value
  sound_of_read (text : String) (value : α) (h : read? text = some value) : sound value
  write_read (text : String) (value : α) (h : read? text = some value) :
    read? (write value) = some value ∧
      ∀ again : α, read? (write value) = some again → write again = write value

section Types
variable {α : Type} [JsonForm α] {sound : α → Prop}

theorem read?_write (h : Faithful α sound) (value : α) :
    (read? (write value) : Option α) = decode? (encode value) := by
  rw [read?, write, String.toList_ofList, Json.ofChars?_write (h.plain value), Option.bind_some]

private theorem Faithful.congr (h : Faithful α sound) {other : α → Prop}
    (hs : ∀ value, sound value ↔ other value) : Faithful α other where
  plain := h.plain
  decode_encode value := (h.decode_encode value).trans (hs value)
  sound_of_decode hd := (hs _).mp (h.sound_of_decode hd)

theorem Faithful.settles (h : Faithful α sound) : Settles α sound := by
  have hback (value : α) : read? (write value) = some value ↔ sound value := by
    rw [read?_write h, h.decode_encode]
  have hsound (text : String) (value : α) (hr : read? text = some value) : sound value := by
    obtain ⟨json, -, hd⟩ := Option.bind_eq_some_iff.mp hr
    exact h.sound_of_decode hd
  refine ⟨hback, hsound, fun text value hr => ?_⟩
  have hvalue := (hback value).mpr (hsound text value hr)
  refine ⟨hvalue, fun again ha => ?_⟩
  obtain rfl := Option.some.inj (hvalue.symm.trans ha)
  rfl

end Types

section Made
variable {α β : Type} [JsonForm α] [JsonForm β]

/-- Values that are encoded as numbers are faithful if they are given back by their numbers. -/
private theorem Faithful.of_numbers (number : α → Nat) (value? : Nat → Option α)
    (he : ∀ value : α, encode value = .ofNat (number value))
    (hd : ∀ json, (decode? json : Option α) = json.asNat?.bind value?)
    (hv : ∀ value, value? (number value) = some value) : Faithful α fun _ => True where
  plain value := he value ▸ Json.plain_ofNat (number value)
  decode_encode value := by
    refine iff_of_true ?_ trivial
    rw [he, hd, Json.asNat?_ofNat, Option.bind_some, hv]
  sound_of_decode _ := trivial

/-- Values that hold one faithful value are as faithful as that. -/
private theorem Faithful.of_held {sound : α → Prop} (h : Faithful α sound) (wrap : α → β)
    (held : β → α) (hw : ∀ value, wrap (held value) = value)
    (hh : ∀ value, held (wrap value) = value)
    (he : ∀ value : β, encode value = encode (held value))
    (hd : ∀ json, (decode? json : Option β) = (decode? json).map wrap) :
    Faithful β fun value => sound (held value) where
  plain value := he value ▸ h.plain (held value)
  decode_encode value := by
    rw [he, hd, ← h.decode_encode]
    constructor
    · intro hvalue
      obtain ⟨own, ho, rfl⟩ := Option.map_eq_some_iff.mp hvalue
      rwa [hh] at ho ⊢
    · intro hvalue
      rw [hvalue, Option.map_some, hw]
  sound_of_decode hjson := by
    rw [hd] at hjson
    obtain ⟨own, ho, rfl⟩ := Option.map_eq_some_iff.mp hjson
    rw [hh]
    exact h.sound_of_decode ho

end Made

theorem faithful_bool : Faithful Bool fun _ => True where
  plain _ := trivial
  decode_encode _ := iff_of_true rfl trivial
  sound_of_decode _ := trivial

theorem faithful_uint32 : Faithful UInt32 fun _ => True :=
  .of_numbers UInt32.toNat _ (fun _ => rfl) (fun _ => rfl) fun n =>
    (if_pos n.toNat_lt).trans (congrArg some UInt32.ofNat_toNat)

theorem faithful_uint64 : Faithful UInt64 fun _ => True :=
  .of_numbers UInt64.toNat _ (fun _ => rfl) (fun _ => rfl) fun n =>
    (if_pos n.toNat_lt).trans (congrArg some UInt64.ofNat_toNat)

theorem faithful_nameId : Faithful NameId fun _ => True :=
  faithful_uint32.of_held NameId.mk NameId.value (fun _ => rfl) (fun _ => rfl) (fun _ => rfl)
    fun _ => rfl

theorem faithful_functionRef : Faithful FunctionRef fun _ => True :=
  faithful_uint32.of_held FunctionRef.mk FunctionRef.value (fun _ => rfl) (fun _ => rfl)
    (fun _ => rfl) fun _ => rfl

theorem faithful_resultKind : Faithful ResultKind fun _ => True where
  plain kind := Json.plain_ofText kind.name
  decode_encode kind := by
    refine iff_of_true ?_ trivial
    change (Json.ofText kind.name).asText?.bind ResultKind.ofName? = _
    rw [Json.asText?_ofText, Option.bind_some]
    cases kind <;> decide
  sound_of_decode _ := trivial

theorem faithful_parameterKind : Faithful ParameterKind ParameterKind.Proper where
  plain kind := Json.plain_ofText kind.name
  decode_encode kind := by
    change (Json.ofText kind.name).asText?.map ParameterKind.ofName = _ ↔ _
    rw [Json.asText?_ofText, Option.map_some, Option.some_inj]
    exact ParameterKind.ofName_name_iff
  sound_of_decode h := by
    obtain ⟨name, -, rfl⟩ := Option.map_eq_some_iff.mp h
    exact ParameterKind.proper_ofName name

section Lists
variable {α : Type} [JsonForm α] {sound : α → Prop}

/-- Items are decoded one by one. -/
private theorem mapM_decode_iff (h : Faithful α sound) (values : List α) :
    (values.map encode).mapM (decode? : Json → Option α) = some values ↔
      ∀ value ∈ values, sound value := by
  induction values with
  | nil => simp
  | cons value values ih =>
    rw [List.forall_mem_cons, ← h.decode_encode, ← ih, List.map_cons, List.mapM_cons]
    simp [Option.bind_eq_some_iff]

private theorem sound_of_mapM (h : Faithful α sound) {items : List Json} {values : List α}
    (hm : items.mapM decode? = some values) : ∀ value ∈ values, sound value := by
  induction items generalizing values with
  | nil =>
    obtain rfl := Option.some.inj hm
    nofun
  | cons item items ih =>
    rw [List.mapM_cons] at hm
    obtain ⟨value, hv, hm⟩ := Option.bind_eq_some_iff.mp hm
    obtain ⟨others, ho, hm⟩ := Option.bind_eq_some_iff.mp hm
    obtain rfl := Option.some.inj hm
    exact List.forall_mem_cons.mpr ⟨h.sound_of_decode hv, ih ho⟩

theorem faithful_list (h : Faithful α sound) :
    Faithful (List α) fun values => ∀ value ∈ values, sound value where
  plain values := by
    refine Json.allPlain_iff.mpr fun item hi => ?_
    obtain ⟨value, -, rfl⟩ := List.mem_map.mp hi
    exact h.plain value
  decode_encode values := mapM_decode_iff h values
  sound_of_decode hjson := by
    obtain ⟨items, -, hm⟩ := Option.bind_eq_some_iff.mp hjson
    exact sound_of_mapM h hm

end Lists

section Records
variable {α β γ : Type} [JsonForm α] [JsonForm β] [JsonForm γ] {sound : α → Prop}
  {other : β → Prop}

private structure FieldOf (sound : α → Prop) (field? : Option Json → Option α) : Prop where
  faithful : Faithful α sound
  there (json : Json) : field? (some json) = decode? json
  left (value : α) (h : field? none = some value) : sound value

private theorem FieldOf.required (h : Faithful α sound) : FieldOf sound required? :=
  ⟨h, fun _ => rfl, nofun⟩

private theorem FieldOf.optional (h : Faithful α sound) {default : α} (hd : sound default) :
    FieldOf sound (optional? default) :=
  ⟨h, fun _ => rfl, fun _ hv => Option.some.inj hv ▸ hd⟩

private theorem FieldOf.sound_of_some {field? : Option Json → Option α} (h : FieldOf sound field?)
    {field : Option Json} {value : α} (hv : field? field = some value) : sound value := by
  cases field with
  | none => exact h.left value hv
  | some json => exact h.faithful.sound_of_decode ((h.there json).symm.trans hv)

/-- A record of two fields is as faithful as they are. -/
private theorem Faithful.of_fields {first? : Option Json → Option α}
    {second? : Option Json → Option β} (h : FieldOf sound first?) (ho : FieldOf other second?)
    {first second : String} (hne : first ≠ second) (make : α → β → γ) (one : γ → α) (two : γ → β)
    (hmade : ∀ value x y, make x y = value ↔ x = one value ∧ y = two value)
    (he : ∀ value : γ,
      encode value = .record [(first, encode (one value)), (second, encode (two value))])
    (hd : ∀ json, (decode? json : Option γ) = (json.fields? [first, second]).bind fun
      | [x, y] => (first? x).bind fun x => (second? y).bind fun y => some (make x y)
      | _ => none) :
    Faithful γ fun value => sound (one value) ∧ other (two value) where
  plain value := by
    rw [he]
    exact Json.plain_record (List.forall_mem_cons.mpr ⟨h.faithful.plain _,
      List.forall_mem_cons.mpr ⟨ho.faithful.plain _, nofun⟩⟩)
  decode_encode value := by
    rw [he, hd, Json.fields?_record hne, Option.bind_some]
    simp only [h.there, ho.there, ← h.faithful.decode_encode, ← ho.faithful.decode_encode,
      Option.bind_eq_some_iff, Option.some_inj, hmade]
    constructor
    · rintro ⟨_, hx, _, hy, rfl, rfl⟩
      exact ⟨hx, hy⟩
    · rintro ⟨hx, hy⟩
      exact ⟨_, hx, _, hy, rfl, rfl⟩
  sound_of_decode {json value} hjson := by
    rw [hd] at hjson
    obtain ⟨fields, -, hfields⟩ := Option.bind_eq_some_iff.mp hjson
    split at hfields
    · obtain ⟨x, hx, hfields⟩ := Option.bind_eq_some_iff.mp hfields
      obtain ⟨y, hy, hvalue⟩ := Option.bind_eq_some_iff.mp hfields
      obtain ⟨rfl, rfl⟩ := (hmade value x y).mp (Option.some.inj hvalue)
      exact ⟨h.sound_of_some hx, ho.sound_of_some hy⟩
    · cases hfields

theorem faithful_declaration : Faithful Declaration fun declaration => declaration.kind.Proper :=
  Faithful.congr
    (.of_fields (.required faithful_parameterKind) (.optional faithful_bool trivial) (by decide)
      Declaration.mk Declaration.kind Declaration.optional
      (fun _ _ _ => by rw [Declaration.mk.injEq]) (fun _ => rfl) fun _ => rfl)
    fun _ => and_iff_left trivial

theorem faithful_signature :
    Faithful Signature fun signature =>
      ∀ declaration ∈ signature.parameters, declaration.kind.Proper :=
  Faithful.congr
    (.of_fields (.required faithful_functionRef) (.required (faithful_list faithful_declaration))
      (by decide) Signature.mk Signature.id Signature.parameters
      (fun _ _ _ => by rw [Signature.mk.injEq]) (fun _ => rfl) fun _ => rfl)
    fun _ => and_iff_right trivial

theorem faithful_options : Faithful Options fun _ => True :=
  Faithful.congr
    (.of_fields (.optional faithful_bool trivial) (.optional faithful_uint64 trivial) (by decide)
      Options.mk Options.diagnostics Options.maxDepth
      (fun _ _ _ => by rw [Options.mk.injEq]) (fun _ => rfl) fun _ => rfl)
    fun _ => and_iff_left trivial

end Records

/-- Options, kinds of values, numbers of names, declarations and functions are given back by the
texts that they are written as, the last two if and only if none of their parameter kinds is a known
one told as another name. Whatever is read from a text, in any shape, is such a value. -/
theorem forms_settle :
    Settles Options (fun _ => True) ∧
    Settles ResultKind (fun _ => True) ∧
    Settles NameId (fun _ => True) ∧
    Settles (List Declaration) (fun declarations =>
      ∀ declaration ∈ declarations, declaration.kind.Proper) ∧
    Settles Signature (fun signature =>
      ∀ declaration ∈ signature.parameters, declaration.kind.Proper) :=
  ⟨faithful_options.settles, faithful_resultKind.settles, faithful_nameId.settles,
    (faithful_list faithful_declaration).settles, faithful_signature.settles⟩

/-- A function as an object with its fields turned around and an unknown one, and a declaration of
it as an array, is written in one shape only. -/
theorem forms_settle_sample :
    let text :=
      "\x7b\"parameters\":[[\"color\"],\x7b\"optional\":true,\"type\":\"k\"\x7d],\"x\":1,\"id\":7\x7d"
    let signature : Signature := ⟨⟨7⟩, [⟨.color, false⟩, ⟨.other "k", true⟩]⟩
    read? text = some signature ∧ read? (write signature) = some signature := by
  intro text signature
  have hread : read? text = some signature := by decide +kernel
  obtain ⟨-, -, -, -, hsignatures⟩ := forms_settle
  exact ⟨hread, (hsignatures.write_read text signature hread).1⟩

end JsonForm
end SceneFormula
