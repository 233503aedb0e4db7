import SceneFormula.Call.Resolution

namespace SceneFormula
open Source (splitComponent)

/-- A name is split at the first `::` that stands in it. -/
theorem Source.splitComponent_eq {name part member : List Char}
    (h : splitComponent name = some (part, member)) : name = part ++ ':' :: ':' :: member := by
  fun_induction splitComponent name generalizing part with
  | case1 rest =>
    obtain ⟨rfl, rfl⟩ := Prod.mk.inj (Option.some.inj h)
    rfl
  | case2 c rest _ ih =>
    obtain ⟨⟨front, behind⟩, hs, he⟩ := Option.map_eq_some_iff.mp h
    obtain ⟨rfl, rfl⟩ := Prod.mk.inj he
    rw [ih hs, List.cons_append]
  | case3 => cases h

namespace World

/-- What a name means: a free function without an object; on an object a function of its type, or
else one of a component that is attached to it. -/
inductive Means (world : World) (kind : ResultKind) : Option String → String → Target → Prop
  | free {name : String} {signature : Signature}
    (hf : world.function? kind .free name = some signature) :
    Means world kind none name ⟨.free signature.id, signature.parameters, []⟩
  | object {object name : String} {type : EntityType} {signature : Signature}
    (ho : world.objectType? object = some type)
    (hf : world.function? kind (.object type) name = some signature) :
    Means world kind (some object) name
      ⟨.object type signature.id, signature.parameters, [object]⟩
  | component {object name : String} {component member : List Char} {type : EntityType}
    {signature : Signature}
    (hn : splitComponent name.toList = some (component, member))
    (hc : world.componentType? (String.ofList component) = some type)
    (hf : world.function? kind (.component type) (String.ofList member) = some signature)
    (ha : type ∈ world.attached object)
    (hown : ∀ own, world.objectType? object = some own →
      world.function? kind (.object own) name = none) :
    Means world kind (some object) name
      ⟨.component type signature.id, signature.parameters, [object, String.ofList component]⟩

variable {world : World} {kind : ResultKind} {receiver : Option String} {object name : String}
  {target : Target}

theorem objectTarget?_eq_some_iff :
    world.objectTarget? kind object name = some target ↔
      ∃ type signature, world.objectType? object = some type ∧
        world.function? kind (.object type) name = some signature ∧
        target = ⟨.object type signature.id, signature.parameters, [object]⟩ := by
  rw [objectTarget?]
  cases world.objectType? object with
  | none => simp
  | some type =>
    constructor
    · intro h
      obtain ⟨signature, hf, rfl⟩ := Option.map_eq_some_iff.mp h
      exact ⟨type, signature, rfl, hf, rfl⟩
    · rintro ⟨_, signature, ⟨⟩, hf, rfl⟩
      exact Option.map_eq_some_iff.mpr ⟨signature, hf, rfl⟩

theorem objectTarget?_eq_none_iff :
    world.objectTarget? kind object name = none ↔
      ∀ type, world.objectType? object = some type →
        world.function? kind (.object type) name = none := by
  rw [objectTarget?]
  cases world.objectType? object with
  | none => simp
  | some type => simp

theorem componentTarget?_eq_some_iff :
    world.componentTarget? kind object name = some target ↔
      ∃ component member type signature,
        splitComponent name.toList = some (component, member) ∧
        world.componentType? (String.ofList component) = some type ∧
        world.function? kind (.component type) (String.ofList member) = some signature ∧
        type ∈ world.attached object ∧
        target = ⟨.component type signature.id, signature.parameters,
          [object, String.ofList component]⟩ := by
  rw [componentTarget?]
  constructor
  · intro h
    split at h
    · cases h
    · rename_i component member hn
      simp only at h
      split at h
      · cases h
      · rename_i type hc
        split at h
        · cases h
        · rename_i signature hf
          split at h
          · rename_i ha
            exact ⟨component, member, type, signature, hn, hc, hf, ha, (Option.some.inj h).symm⟩
          · cases h
  · rintro ⟨component, member, type, signature, hn, hc, hf, ha, rfl⟩
    simp only [hn, hc, hf, if_pos ha]

/-- A call is resolved to what its name means, and to nothing if that means nothing. -/
theorem resolve_eq_some_iff :
    world.resolve kind receiver name = some target ↔ world.Means kind receiver name target := by
  cases receiver with
  | none =>
    rw [resolve, freeTarget?, Option.map_eq_some_iff]
    constructor
    · rintro ⟨signature, hf, rfl⟩
      exact .free hf
    · intro h
      cases h with
      | free hf => exact ⟨_, hf, rfl⟩
  | some object =>
    rw [resolve, Option.or_eq_some_iff, objectTarget?_eq_some_iff, objectTarget?_eq_none_iff,
      componentTarget?_eq_some_iff]
    constructor
    · rintro (⟨type, signature, ho, hf, rfl⟩ |
        ⟨hown, component, member, type, signature, hn, hc, hf, ha, rfl⟩)
      · exact .object ho hf
      · exact .component hn hc hf ha hown
    · intro h
      cases h with
      | object ho hf => exact .inl ⟨_, _, ho, hf, rfl⟩
      | component hn hc hf ha hown => exact .inr ⟨hown, _, _, _, _, hn, hc, hf, ha, rfl⟩

end World
end SceneFormula
