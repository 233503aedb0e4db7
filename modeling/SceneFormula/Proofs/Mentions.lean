import Mathlib.Data.List.Forall2
import Mathlib.Data.List.Infix
import SceneFormula.Proofs.MadeCalls
import SceneFormula.World.Basic

namespace SceneFormula
open Source (ArgumentList decodeSpaces splitComponent)

/-- Whether a name is the written one in which some `~` are read as spaces. -/
def Decodes (written name : List Char) : Prop :=
  List.Forall₂ (fun c d => d = c ∨ c = '~' ∧ d = ' ') written name

/-- Whether a name is a part of a text in which some `~` are read as spaces. -/
def Mentions (text name : List Char) : Prop :=
  ∃ part, part <:+: text ∧ Decodes part name

theorem Decodes.refl (name : List Char) : Decodes name name :=
  List.forall₂_same.mpr fun _ _ => .inl rfl

theorem Decodes.trans {written name other : List Char} (h : Decodes written name)
    (ho : Decodes name other) : Decodes written other := by
  unfold Decodes at h ho ⊢
  induction h generalizing other with
  | nil => exact ho
  | cons hc _ ih =>
    cases ho with
    | cons hd ho =>
      refine .cons ?_ (ih ho)
      rcases hd with rfl | ⟨rfl, rfl⟩
      · exact hc
      · rcases hc with rfl | ⟨rfl, h⟩
        · exact .inr ⟨rfl, rfl⟩
        · cases h

/-- A part of a decoded name is decoded from a part of the written one. -/
theorem Decodes.exists_part {written name part : List Char} (h : Decodes written name)
    (hp : part <:+: name) : ∃ other, other <:+: written ∧ Decodes other part := by
  obtain ⟨before, after, rfl⟩ := hp
  have hfront := List.forall₂_take_append written (before ++ part) after h
  exact ⟨_, (List.drop_suffix _ _).isInfix.trans (List.take_prefix _ _).isInfix,
    List.forall₂_drop_append _ before part hfront⟩

theorem decodes_decodeSpaces (name : List Char) : Decodes name (decodeSpaces name) := by
  refine List.forall₂_map_right_iff.mpr (List.forall₂_same.mpr fun c _ => ?_)
  by_cases hc : c = '~'
  · exact .inr ⟨hc, if_pos hc⟩
  · exact .inl (if_neg hc)

namespace Mentions
variable {text name other : List Char}

theorem of_part (h : name <:+: text) : Mentions text name :=
  ⟨name, h, .refl name⟩

theorem trans (h : Mentions text name) (ho : Mentions name other) : Mentions text other := by
  obtain ⟨part, hp, hd⟩ := h
  obtain ⟨inner, hi, he⟩ := ho
  obtain ⟨written, hw, hf⟩ := hd.exists_part hi
  exact ⟨written, hw.trans hp, hf.trans he⟩

theorem decodeSpaces (h : name <:+: text) : Mentions text (decodeSpaces name) :=
  ⟨name, h, decodes_decodeSpaces name⟩

/-- Both sides of a `::` in a mentioned name are mentioned. -/
theorem splitComponent {component member : List Char} (h : Mentions text name)
    (hs : splitComponent name = some (component, member)) :
    Mentions text component ∧ Mentions text member := by
  obtain rfl := Source.splitComponent_eq hs
  refine ⟨h.trans (of_part (List.prefix_append _ _).isInfix), h.trans (of_part ?_)⟩
  exact ⟨component ++ [':', ':'], [], by simp⟩

end Mentions

namespace Callee
variable {text : List Char} {callee : Callee}

/-- The call as it is written, with any part of what follows it. -/
theorem written_take_part (h : next? text = some callee) (count : Nat) :
    callee.written ++ callee.tail.take count <:+: text := by
  refine ⟨callee.lead, callee.tail.drop count, ?_⟩
  rw [← next?_append h]
  simp only [List.append_assoc, List.take_append_drop]

theorem written_part (h : next? text = some callee) : callee.written <:+: text := by
  simpa using written_take_part h 0

theorem tail_suffix (h : next? text = some callee) : callee.tail <:+ text :=
  ⟨callee.lead ++ callee.written, next?_append h⟩

theorem name_part (h : next? text = some callee) : callee.name <:+: text :=
  (List.prefix_append _ _).isInfix.trans (written_part h)

theorem function_part (h : next? text = some callee) : callee.function <:+: text := by
  refine List.IsInfix.trans ?_ (written_part h)
  unfold function written
  cases callee.member with
  | none => exact (List.prefix_append _ _).isInfix
  | some member => exact ⟨callee.name ++ ['.'], [], by simp⟩

theorem mentions_function (h : next? text = some callee) :
    Mentions text (String.ofList callee.function).toList := by
  rw [String.toList_ofList]
  exact .of_part (function_part h)

theorem mentions_receiver (h : next? text = some callee) :
    ∀ object ∈ callee.receiver?, Mentions text object.toList := by
  intro object ho
  obtain ⟨_, -, rfl⟩ := Option.map_eq_some_iff.mp ho
  rw [String.toList_ofList]
  exact .decodeSpaces (name_part h)

end Callee

/-- The arguments of a list are parts of the text in which it opens. -/
theorem mentions_argument {text : List Char} {offset : Nat} {list : ArgumentList}
    (ho : ArgumentList.open? offset text = some list) :
    ∀ argument ∈ list.arguments, Mentions text (String.ofList argument.text).toList := by
  intro argument ha
  obtain ⟨spaces, inside, rfl, rfl⟩ := ArgumentList.open?_eq_some_iff.mp ho
  have hargument := ArgumentList.infix_of_mem_texts (List.mem_map_of_mem ha)
  have hinside : inside <:+ List.replicate spaces ' ' ++ '(' :: inside :=
    (List.suffix_cons '(' inside).trans (List.suffix_append _ _)
  rw [String.toList_ofList]
  exact .of_part (hargument.trans hinside.isInfix)

instance (written name : List Char) : Decidable (Decodes written name) :=
  inferInstanceAs (Decidable (List.Forall₂ _ written name))

/-- Whether a name is mentioned can be found out from every place of the text on. -/
theorem mentions_iff {text name : List Char} :
    Mentions text name ↔ ∃ rest ∈ text.tails, Decodes (rest.take name.length) name := by
  simp only [Mentions, List.mem_tails, List.infix_iff_prefix_suffix]
  constructor
  · rintro ⟨part, ⟨rest, hp, hs⟩, hd⟩
    have hpart : part = rest.take name.length :=
      List.Forall₂.length_eq hd ▸ List.prefix_iff_eq_take.mp hp
    exact ⟨rest, hs, hpart ▸ hd⟩
  · rintro ⟨rest, hs, hd⟩
    exact ⟨_, ⟨rest, List.take_prefix _ _, hs⟩, hd⟩

instance (text name : List Char) : Decidable (Mentions text name) :=
  decidable_of_iff _ mentions_iff.symm

namespace World

structure AgreeOn (text : List Char) (one other : World) : Prop where
  function? {name : String} (h : Mentions text name.toList) (kind : ResultKind) (scope : Scope) :
    one.function? kind scope name = other.function? kind scope name
  objectType? {name : String} (h : Mentions text name.toList) :
    one.objectType? name = other.objectType? name
  componentType? {name : String} (h : Mentions text name.toList) :
    one.componentType? name = other.componentType? name
  attached {name : String} (h : Mentions text name.toList) :
    one.attached name = other.attached name
  identifier? {name : String} (h : Mentions text name.toList) :
    one.identifier? name = other.identifier? name

namespace AgreeOn
variable {text : List Char} {one other third : World}

theorem refl (text : List Char) (world : World) : world.AgreeOn text world :=
  ⟨fun _ _ _ => rfl, fun _ => rfl, fun _ => rfl, fun _ => rfl, fun _ => rfl⟩

theorem trans (h : one.AgreeOn text other) (ho : other.AgreeOn text third) :
    one.AgreeOn text third where
  function? hm kind scope := (h.function? hm kind scope).trans (ho.function? hm kind scope)
  objectType? hm := (h.objectType? hm).trans (ho.objectType? hm)
  componentType? hm := (h.componentType? hm).trans (ho.componentType? hm)
  attached hm := (h.attached hm).trans (ho.attached hm)
  identifier? hm := (h.identifier? hm).trans (ho.identifier? hm)

/-- What a mentioned text mentions is mentioned. -/
theorem of_mentions {part : List Char} (h : one.AgreeOn text other) (hp : Mentions text part) :
    one.AgreeOn part other where
  function? hm := h.function? (hp.trans hm)
  objectType? hm := h.objectType? (hp.trans hm)
  componentType? hm := h.componentType? (hp.trans hm)
  attached hm := h.attached (hp.trans hm)
  identifier? hm := h.identifier? (hp.trans hm)

section Resolution
variable {object name : String}

theorem objectTarget?_eq (h : one.AgreeOn text other) (kind : ResultKind)
    (ho : Mentions text object.toList) (hn : Mentions text name.toList) :
    one.objectTarget? kind object name = other.objectTarget? kind object name := by
  unfold World.objectTarget?
  rw [h.objectType? ho]
  cases other.objectType? object with
  | none => rfl
  | some type => simp only [h.function? hn]

theorem componentTarget?_eq (h : one.AgreeOn text other) (kind : ResultKind)
    (ho : Mentions text object.toList) (hn : Mentions text name.toList) :
    one.componentTarget? kind object name = other.componentTarget? kind object name := by
  unfold World.componentTarget?
  cases hs : splitComponent name.toList with
  | none => rfl
  | some split =>
    obtain ⟨component, member⟩ := split
    obtain ⟨hcomponent, hmember⟩ := hn.splitComponent hs
    rw [← String.toList_ofList (l := component)] at hcomponent
    rw [← String.toList_ofList (l := member)] at hmember
    simp only [h.componentType? hcomponent, h.function? hmember, h.attached ho]

/-- A call of mentioned names means the same. -/
theorem resolve_eq (h : one.AgreeOn text other) (kind : ResultKind) {receiver : Option String}
    (hr : ∀ object ∈ receiver, Mentions text object.toList) (hn : Mentions text name.toList) :
    one.resolve kind receiver name = other.resolve kind receiver name := by
  cases receiver with
  | none => simp only [World.resolve, freeTarget?, h.function? hn]
  | some object =>
    have ho := hr object rfl
    simp only [World.resolve, h.objectTarget?_eq kind ho hn, h.componentTarget?_eq kind ho hn]

end Resolution
end AgreeOn

/-- The receivers of a call of mentioned names are mentioned. -/
theorem mentions_receiver {text : List Char} {world : World} {kind : ResultKind}
    {receiver : Option String} {name : String} {target : Target}
    (ht : world.resolve kind receiver name = some target)
    (hr : ∀ object ∈ receiver, Mentions text object.toList) (hn : Mentions text name.toList) :
    ∀ object ∈ target.receivers, Mentions text object.toList := by
  intro object ho
  cases resolve_eq_some_iff.mp ht with
  | free => cases ho
  | object =>
    obtain rfl := List.mem_singleton.mp ho
    exact hr _ rfl
  | component hs =>
    rcases List.mem_cons.mp ho with rfl | ho
    · exact hr _ rfl
    · obtain rfl := List.mem_singleton.mp ho
      rw [String.toList_ofList]
      exact (hn.splitComponent hs).1

end World

structure Tables where
  functions : FunctionTable := {}
  scene : SceneTable := {}
  names : NameTable := {}

inductive Addition where
  | function (key : FunctionKey) (parameters : List Declaration)
  | object (name : String) (type : EntityType)
  | component (name : String) (type : EntityType)
  | attachment (object : String) (type : EntityType)
  | identifier (name : String)

def Addition.name : Addition → String
  | function key _ => key.name
  | object name _ | component name _ | attachment name _ | identifier name => name

namespace Tables

def world (tables : Tables) : World :=
  .ofTables tables.functions tables.scene tables.names

def context (tables : Tables) (options : Options) : Context :=
  ⟨tables.world, options⟩

def add (tables : Tables) : Addition → Tables
  | .function key parameters =>
    { tables with functions := (tables.functions.register key parameters).2 }
  | .object name type => { tables with scene := tables.scene.addObject name type }
  | .component name type => { tables with scene := tables.scene.addComponent name type }
  | .attachment object type => { tables with scene := tables.scene.attach object type }
  | .identifier name => { tables with names := (tables.names.intern name).2 }

variable {text : List Char}

/-- Tables in which every mentioned name is found as before say the same about it. -/
private theorem agreeOn_of_find {one other : Tables}
    (hf : ∀ name : String, Mentions text name.toList → ∀ kind scope,
      one.functions.find? ⟨kind, scope, name⟩ = other.functions.find? ⟨kind, scope, name⟩)
    (ho : ∀ name : String, Mentions text name.toList →
      one.scene.object? name = other.scene.object? name)
    (hc : ∀ name : String, Mentions text name.toList →
      one.scene.componentType? name = other.scene.componentType? name)
    (hn : ∀ name : String, Mentions text name.toList →
      one.names.find? name = other.names.find? name) :
    one.world.AgreeOn text other.world where
  function? hm kind scope := hf _ hm kind scope
  objectType? hm := congrArg (Option.map SceneObject.type) (ho _ hm)
  componentType? hm := hc _ hm
  attached hm := congrArg (fun object => (object.map SceneObject.attached).getD []) (ho _ hm)
  identifier? hm := hn _ hm

/-- What is added under a name that a text does not mention goes unnoticed. -/
theorem add_agreeOn (tables : Tables) {addition : Addition}
    (h : ¬ Mentions text addition.name.toList) :
    (tables.add addition).world.AgreeOn text tables.world := by
  have hne {name : String} (hm : Mentions text name.toList) : name ≠ addition.name := by
    rintro rfl
    exact h hm
  cases addition with
  | function key parameters =>
    refine agreeOn_of_find (fun name hm kind scope => ?_) ?_ ?_ ?_
    · refine FunctionTable.find?_register_of_ne _ parameters fun he => hne hm ?_
      exact congrArg FunctionKey.name he
    all_goals exact fun _ _ => rfl
  | object name type =>
    refine agreeOn_of_find ?_ (fun other hm => ?_) ?_ ?_
    · exact fun _ _ _ _ => rfl
    · exact SceneTable.object?_addObject_of_ne _ type (hne hm)
    all_goals exact fun _ _ => rfl
  | component name type =>
    refine agreeOn_of_find ?_ ?_ (fun other hm => ?_) ?_
    · exact fun _ _ _ _ => rfl
    · exact fun _ _ => rfl
    · exact SceneTable.componentType?_addComponent_of_ne _ type (hne hm)
    · exact fun _ _ => rfl
  | attachment object type =>
    refine agreeOn_of_find ?_ (fun other hm => ?_) (fun other _ => ?_) ?_
    · exact fun _ _ _ _ => rfl
    · exact SceneTable.object?_attach_of_ne _ type (hne hm)
    · exact congrArg (List.lookup other) (SceneTable.components_attach _ object type)
    · exact fun _ _ => rfl
  | identifier name =>
    refine agreeOn_of_find ?_ ?_ ?_ (fun other hm => ?_)
    · exact fun _ _ _ _ => rfl
    · exact fun _ _ => rfl
    · exact fun _ _ => rfl
    · exact NameTable.find?_intern_of_ne _ (hne hm)

/-- Nor do any number of such additions, one after the other. -/
theorem foldl_add_agreeOn (tables : Tables) {additions : List Addition}
    (h : ∀ addition ∈ additions, ¬ Mentions text addition.name.toList) :
    (additions.foldl add tables).world.AgreeOn text tables.world := by
  induction additions generalizing tables with
  | nil => exact .refl text _
  | cons addition additions ih =>
    have hrest := ih (tables.add addition) fun other ho => h other (List.mem_cons_of_mem _ ho)
    exact hrest.trans (tables.add_agreeOn (h addition List.mem_cons_self))

end Tables
end SceneFormula
