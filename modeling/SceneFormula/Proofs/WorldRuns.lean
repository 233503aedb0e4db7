import Mathlib.Data.Finset.Card
import Mathlib.Data.Finset.Lattice.Lemmas
import Mathlib.Data.List.TakeWhile
import SceneFormula.Proofs.Registrations
import SceneFormula.World.Basic

/-! What a world says of a scene that was changed and of names that were seen, any number of times.
Of the types that a name was added with the last one counts; types are attached to objects that are
there, each one once; and a name is numbered by how many others were seen before it. -/
namespace SceneFormula

inductive SceneAction where
  | addObject | addComponent | attach
  deriving DecidableEq, Repr

structure SceneChange where
  action : SceneAction
  name : String
  type : EntityType
  deriving DecidableEq, Repr

namespace SceneChange

def Concerns (action : SceneAction) (name : String) (change : SceneChange) : Prop :=
  change.action = action ∧ change.name = name

instance (action : SceneAction) (name : String) (change : SceneChange) :
    Decidable (change.Concerns action name) :=
  inferInstanceAs (Decidable (_ ∧ _))

def types (action : SceneAction) (name : String) (changes : List SceneChange) : List EntityType :=
  (changes.filter (·.Concerns action name)).map (·.type)

/-- The types that are attached to an object from when it is first added, in order. -/
def attachments (name : String) (changes : List SceneChange) : List EntityType :=
  types .attach name (changes.dropWhile (¬ ·.Concerns .addObject name))

variable {action : SceneAction} {name : String} {changes : List SceneChange}

theorem types_concat (change : SceneChange) :
    types action name (changes ++ [change]) =
      if change.Concerns action name then types action name changes ++ [change.type]
      else types action name changes := by
  unfold types
  split <;> rename_i h <;> simp [List.filter_append, h]

theorem types_eq_nil_iff :
    types action name changes = [] ↔ ∀ change ∈ changes, ¬change.Concerns action name := by
  simp [types, List.filter_eq_nil_iff]

private theorem dropWhile_eq_nil_iff :
    changes.dropWhile (¬ ·.Concerns .addObject name) = [] ↔ types .addObject name changes = [] := by
  rw [List.dropWhile_eq_nil_iff, types_eq_nil_iff]
  simp

theorem attachments_of_not_added (h : types .addObject name changes = []) :
    attachments name changes = [] := by
  rw [attachments, dropWhile_eq_nil_iff.mpr h]
  rfl

/-- What is attached before an object is first added leaves no trace. -/
theorem attachments_append_of_not_added (h : types .addObject name changes = [])
    (type : EntityType) (more : List SceneChange) :
    attachments name (changes ++ ⟨.addObject, name, type⟩ :: more) = types .attach name more := by
  rw [attachments, List.dropWhile_append, dropWhile_eq_nil_iff.mpr h]
  simp [types, Concerns]

theorem attachments_concat (change : SceneChange) :
    attachments name (changes ++ [change]) =
      if change.Concerns .attach name ∧ types .addObject name changes ≠ [] then
        attachments name changes ++ [change.type]
      else attachments name changes := by
  -- An object that is not there yet is given nothing, also not by the change that adds it.
  by_cases hadded : types .addObject name changes = []
  · rw [if_neg (·.2 hadded), attachments_of_not_added hadded, attachments, List.dropWhile_append,
      dropWhile_eq_nil_iff.mpr hadded]
    by_cases h : change.Concerns .addObject name
    · simp [types, List.dropWhile_cons, Concerns, h.1]
    · simp [types, h]
  · have hdrop := mt dropWhile_eq_nil_iff.mp hadded
    rw [attachments, List.dropWhile_append, if_neg (by simpa using hdrop), types_concat]
    simp only [hadded, ne_eq, not_false_eq_true, and_true]
    rfl

end SceneChange

/-- An item that is put at the end stays there if it is new. -/
theorem eraseDups_concat {α : Type} [DecidableEq α] (items : List α) (item : α) :
    (items ++ [item]).eraseDups =
      if item ∈ items then items.eraseDups else items.eraseDups ++ [item] := by
  rw [List.eraseDups_append]
  split <;> rename_i h <;> simp [List.removeAll, h, List.eraseDups_cons]

theorem nodup_eraseDups {α : Type} [DecidableEq α] (items : List α) : items.eraseDups.Nodup := by
  induction items using List.reverseRecOn with
  | nil => exact List.nodup_nil
  | append_singleton items item ih =>
    rw [eraseDups_concat]
    split
    · exact ih
    · rename_i hnew
      exact List.concat_eq_append ▸ ih.concat (mt List.mem_eraseDups.mp hnew)

theorem toFinset_concat {α : Type} [DecidableEq α] (items : List α) (item : α) :
    (items ++ [item]).toFinset = insert item items.toFinset := by
  ext other
  simp

theorem toFinset_subset_append {α : Type} [DecidableEq α] (items more : List α) :
    items.toFinset ⊆ (items ++ more).toFinset := by
  rw [List.toFinset_append]
  exact Finset.subset_union_left

namespace SceneTable
open SceneChange

def after (scene : SceneTable) (change : SceneChange) : SceneTable :=
  match change.action with
  | .addObject => scene.addObject change.name change.type
  | .addComponent => scene.addComponent change.name change.type
  | .attach => scene.attach change.name change.type

def run (scene : SceneTable) (changes : List SceneChange) : SceneTable :=
  changes.foldl after scene

section Answers
variable (scene : SceneTable) (name other : String) (type : EntityType)

theorem objectType?_addObject : (scene.addObject name type).objectType? other =
    if name = other then some type else scene.objectType? other := by
  split <;> rename_i h
  · subst h
    simp [objectType?, object?, addObject]
  · rw [objectType?, object?_addObject_of_ne scene type (Ne.symm h), objectType?]

theorem attached_addObject : (scene.addObject name type).attached other = scene.attached other := by
  by_cases h : name = other
  · subst h
    simp [attached, object?, addObject]
  · rw [attached, object?_addObject_of_ne scene type (Ne.symm h), attached]

theorem componentType?_addComponent : (scene.addComponent name type).componentType? other =
    if name = other then some type else scene.componentType? other := by
  split <;> rename_i h
  · subst h
    simp [componentType?, addComponent]
  · exact componentType?_addComponent_of_ne scene type (Ne.symm h)

/-- The object gets the type if it does not have it. -/
theorem object?_attach_self : (scene.attach name type).object? name =
    (scene.object? name).map fun object =>
      if type ∈ object.attached then object
      else { object with attached := object.attached ++ [type] } := by
  unfold attach
  cases hobject : scene.object? name with
  | none => exact hobject
  | some object =>
    by_cases h : type ∈ object.attached
    · simp [h, hobject]
    · simp only [if_neg h]
      simp [object?, h]

theorem objectType?_attach :
    (scene.attach name type).objectType? other = scene.objectType? other := by
  by_cases h : name = other
  · subst h
    rw [objectType?, object?_attach_self, objectType?, Option.map_map]
    congr 1
    funext object
    exact apply_ite SceneObject.type _ _ _ |>.trans (ite_self _)
  · rw [objectType?, object?_attach_of_ne scene type (Ne.symm h), objectType?]

theorem attached_attach : (scene.attach name type).attached other =
    if name = other ∧ scene.objectType? other ≠ none ∧ type ∉ scene.attached other then
      scene.attached other ++ [type]
    else scene.attached other := by
  by_cases h : name = other
  · subst h
    rw [attached, object?_attach_self, attached, objectType?]
    cases scene.object? name with
    | none => simp
    | some object => by_cases hmem : type ∈ object.attached <;> simp [hmem]
  · rw [attached, object?_attach_of_ne scene type (Ne.symm h), attached, if_neg (h ·.1)]

theorem componentType?_attach :
    (scene.attach name type).componentType? other = scene.componentType? other := by
  rw [componentType?, components_attach, componentType?]

variable (change : SceneChange)

theorem objectType?_after : (scene.after change).objectType? name =
    if change.Concerns .addObject name then some change.type else scene.objectType? name := by
  obtain ⟨action, changed, type⟩ := change
  cases action with
  | addObject =>
    simp only [Concerns, true_and]
    exact objectType?_addObject scene changed name type
  | addComponent =>
    rw [if_neg (nomatch ·.1)]
    rfl
  | attach =>
    rw [if_neg (nomatch ·.1)]
    exact objectType?_attach scene changed name type

theorem componentType?_after : (scene.after change).componentType? name =
    if change.Concerns .addComponent name then some change.type
    else scene.componentType? name := by
  obtain ⟨action, changed, type⟩ := change
  cases action with
  | addObject =>
    rw [if_neg (nomatch ·.1)]
    rfl
  | addComponent =>
    simp only [Concerns, true_and]
    exact componentType?_addComponent scene changed name type
  | attach =>
    rw [if_neg (nomatch ·.1)]
    exact componentType?_attach scene changed name type

theorem attached_after : (scene.after change).attached name =
    if change.Concerns .attach name ∧ scene.objectType? name ≠ none ∧
        change.type ∉ scene.attached name then
      scene.attached name ++ [change.type]
    else scene.attached name := by
  obtain ⟨action, changed, type⟩ := change
  cases action with
  | addObject =>
    rw [if_neg (nomatch ·.1.1)]
    exact attached_addObject scene changed name type
  | addComponent =>
    rw [if_neg (nomatch ·.1.1)]
    rfl
  | attach =>
    simp only [Concerns, true_and]
    exact attached_attach scene changed name type

end Answers

structure Reflects (done : List SceneChange) (scene : SceneTable) : Prop where
  objectType? (name : String) : scene.objectType? name = (types .addObject name done).getLast?
  componentType? (name : String) :
    scene.componentType? name = (types .addComponent name done).getLast?
  attached (name : String) : scene.attached name = (attachments name done).eraseDups

namespace Reflects
variable {done : List SceneChange} {scene : SceneTable}

theorem empty : Reflects [] {} :=
  ⟨fun _ => rfl, fun _ => rfl, fun _ => rfl⟩

theorem after (h : Reflects done scene) (change : SceneChange) :
    Reflects (done ++ [change]) (scene.after change) := by
  constructor <;> intro name
  · rw [objectType?_after, types_concat, h.objectType?]
    split
    · exact List.getLast?_concat.symm
    · rfl
  · rw [componentType?_after, types_concat, h.componentType?]
    split
    · exact List.getLast?_concat.symm
    · rfl
  · rw [attached_after, attachments_concat]
    simp only [h.attached, h.objectType?, ne_eq, List.getLast?_eq_none_iff, List.mem_eraseDups,
      ← and_assoc]
    -- The scene looks for the type among those attached, and the list among all attachments.
    by_cases hthere : change.Concerns .attach name ∧ ¬types .addObject name done = []
    · rw [if_pos hthere, eraseDups_concat]
      simp only [hthere, true_and, not_false_eq_true, ite_not]
    · rw [if_neg hthere, if_neg fun hall => hthere hall.1]

theorem run (h : Reflects done scene) (changes : List SceneChange) :
    Reflects (done ++ changes) (scene.run changes) := by
  induction changes generalizing done scene with
  | nil => exact (List.append_nil done).symm ▸ h
  | cons first rest ih =>
    have hrest := ih (h.after first)
    rw [List.append_assoc] at hrest
    exact hrest

end Reflects
end SceneTable

/-- A number is the one of a name: as many different names were seen before it. -/
def NameId.IsOf (done : List String) (name : String) (id : NameId) : Prop :=
  ∃ before after, done = before ++ name :: after ∧ name ∉ before ∧
    id.value.toNat = before.toFinset.card

namespace NameId
variable {done : List String} {name other : String} {id : NameId}

theorem IsOf.append (h : id.IsOf done name) (more : List String) : id.IsOf (done ++ more) name := by
  obtain ⟨before, after, rfl, hbefore, hid⟩ := h
  exact ⟨before, after ++ more, by simp, hbefore, hid⟩

/-- A further name leaves all numbers as they are, and has the next one if it is new. -/
theorem isOf_concat : id.IsOf (done ++ [other]) name ↔
    id.IsOf done name ∨ other ∉ done ∧ other = name ∧ id.value.toNat = done.toFinset.card := by
  constructor
  · rintro ⟨before, after, hdone, hbefore, hid⟩
    rcases concat_eq_append_cons_iff.mp hdone with ⟨rfl, rfl, rfl⟩ | ⟨rest, rfl, rfl⟩
    · exact .inr ⟨hbefore, rfl, hid⟩
    · exact .inl ⟨before, rest, rfl, hbefore, hid⟩
  · rintro (h | ⟨hnew, rfl, hid⟩)
    · exact h.append [other]
    · exact ⟨done, [], rfl, hnew, hid⟩

/-- Behind the first place of a name there are more different names than before it. -/
private theorem card_lt {before after : List String} (h : name ∉ before) :
    before.toFinset.card < (before ++ name :: after).toFinset.card := by
  have hsubset := toFinset_subset_append before (name :: after)
  exact Finset.card_lt_card ((Finset.ssubset_iff_of_subset hsubset).mpr ⟨name, by simp, by simpa⟩)

/-- Two names with as many different names before them stand at one place. -/
private theorem head_eq {before between after after' : List String} (hbefore : name ∉ before)
    (hcard : before.toFinset.card = (before ++ between).toFinset.card)
    (hrest : name :: after = between ++ other :: after') : name = other := by
  cases between with
  | nil => exact (List.cons.inj hrest).1
  | cons first between =>
    obtain ⟨rfl, -⟩ := List.cons.inj hrest
    exact absurd hcard (card_lt hbefore).ne

/-- Different names have different numbers. -/
theorem IsOf.name_eq (h : id.IsOf done name) (ho : id.IsOf done other) : name = other := by
  obtain ⟨before, after, hdone, hbefore, hid⟩ := h
  obtain ⟨before', after', hdone', hbefore', hid'⟩ := ho
  have hcard := hid.symm.trans hid'
  -- The names before one of the two are the first ones of those before the other.
  rcases List.append_eq_append_iff.mp (hdone.symm.trans hdone') with
    ⟨between, rfl, hrest⟩ | ⟨between, rfl, hrest⟩
  · exact head_eq hbefore hcard hrest
  · exact (head_eq hbefore' hcard.symm hrest).symm

/-- The numbers of names are counted up without a gap. -/
theorem exists_isOf_iff (hroom : done.toFinset.card < UInt32.size) {number : Nat} :
    (∃ name id, IsOf done name id ∧ id.value.toNat = number) ↔ number < done.toFinset.card := by
  constructor
  · rintro ⟨name, id, ⟨before, after, rfl, hbefore, hid⟩, rfl⟩
    exact hid ▸ card_lt hbefore
  · intro hnumber
    -- The greatest number is the one of the last new name, so that the names go from the end.
    induction done using List.reverseRecOn with
    | nil => simp at hnumber
    | append_singleton done last ih =>
      rw [toFinset_concat] at hroom hnumber
      by_cases hlast : last ∈ done
      · rw [Finset.insert_eq_of_mem (by simpa)] at hroom hnumber
        obtain ⟨name, id, hid, rfl⟩ := ih hroom hnumber
        exact ⟨name, id, hid.append [last], rfl⟩
      · rw [Finset.card_insert_of_notMem (by simpa)] at hroom hnumber
        rcases Nat.lt_succ_iff_lt_or_eq.mp hnumber with hlt | rfl
        · obtain ⟨name, id, hid, rfl⟩ := ih (by omega) hlt
          exact ⟨name, id, hid.append [last], rfl⟩
        · have hid : done.toFinset.card.toUInt32.toNat = done.toFinset.card :=
            UInt32.toNat_ofNat_of_lt' (Nat.lt_of_succ_lt hroom)
          exact ⟨last, ⟨_⟩, isOf_concat.mpr (.inr ⟨hlast, rfl, hid⟩), hid⟩

end NameId

namespace NameTable

def internAll (table : NameTable) : List String → List NameId × NameTable
  | [] => ([], table)
  | first :: rest =>
    let (id, next) := table.intern first
    let (ids, last) := next.internAll rest
    (id :: ids, last)

section Intern
variable {table : NameTable} {name : String}

theorem intern_of_some {id : NameId} (h : table.find? name = some id) :
    table.intern name = (id, table) := by
  simp only [intern, h]

theorem intern_of_none (h : table.find? name = none) :
    table.intern name = (⟨table.names.length.toUInt32⟩, ⟨table.names ++ [name]⟩) := by
  simp only [intern, h]

theorem find?_intern_self (table : NameTable) (name : String) :
    (table.intern name).2.find? name = some (table.intern name).1 := by
  cases h : table.find? name with
  | some id => rw [intern_of_some h, h]
  | none =>
    have hnew : table.names.findIdx? (· == name) = none := by
      simpa [find?, List.idxOf?] using h
    rw [intern_of_none h]
    simp [find?, List.idxOf?, List.findIdx?_append, hnew]

end Intern

structure Reflects (done : List String) (table : NameTable) : Prop where
  size : table.names.length = done.toFinset.card
  find?_eq_none {name : String} : table.find? name = none ↔ name ∉ done
  find?_eq_some {name : String} {id : NameId} : table.find? name = some id ↔ id.IsOf done name

namespace Reflects
variable {done : List String} {table : NameTable}

theorem empty : Reflects [] {} where
  size := rfl
  find?_eq_none := ⟨fun _ => List.not_mem_nil, fun _ => rfl⟩
  find?_eq_some := ⟨nofun, fun ⟨before, after, hdone, _⟩ => by simp at hdone⟩

/-- A name that was seen changes nothing. -/
private theorem intern_old (h : Reflects done table) {name : String} (hname : name ∈ done) :
    Reflects (done ++ [name]) (table.intern name).2 := by
  obtain ⟨id, hid⟩ := Option.ne_none_iff_exists'.mp (mt h.find?_eq_none.mp (not_not_intro hname))
  rw [intern_of_some hid]
  constructor
  · rw [h.size, toFinset_concat, Finset.insert_eq_of_mem (by simpa)]
  · intro other
    rw [h.find?_eq_none, List.mem_append, List.mem_singleton, not_or, iff_self_and]
    rintro hother rfl
    exact hother hname
  · intro other id
    rw [h.find?_eq_some, NameId.isOf_concat]
    simp [hname]

/-- A new name gets the next number, which is the size of the table. -/
private theorem intern_new (h : Reflects done table) {name : String} (hname : name ∉ done)
    (hroom : done.toFinset.card < UInt32.size) :
    Reflects (done ++ [name]) (table.intern name).2 := by
  have hnone := h.find?_eq_none.mpr hname
  have hnext : (table.intern name).1.value.toNat = done.toFinset.card := by
    rw [intern_of_none hnone, h.size]
    exact UInt32.toNat_ofNat_of_lt' hroom
  constructor
  · rw [intern_of_none hnone, toFinset_concat, Finset.card_insert_of_notMem (by simpa),
      ← h.size, List.length_append, List.length_singleton]
  · intro other
    by_cases hother : other = name
    · simp [hother, find?_intern_self]
    · rw [find?_intern_of_ne table hother, h.find?_eq_none]
      simp [hother]
  · intro other id
    rw [NameId.isOf_concat]
    by_cases hother : other = name
    · subst hother
      have hold : ¬id.IsOf done other := fun ho => nomatch hnone.symm.trans (h.find?_eq_some.mpr ho)
      rw [find?_intern_self, Option.some.injEq, ← hnext, UInt32.toNat_inj]
      simp only [hold, hname, not_false_eq_true, true_and, false_or]
      exact ⟨fun heq => heq ▸ rfl, fun heq => congrArg NameId.mk heq.symm⟩
    · rw [find?_intern_of_ne table hother, h.find?_eq_some]
      simp [Ne.symm hother]

theorem intern (h : Reflects done table) (name : String)
    (hroom : done.toFinset.card < UInt32.size) :
    Reflects (done ++ [name]) (table.intern name).2 := by
  by_cases hname : name ∈ done
  · exact h.intern_old hname
  · exact h.intern_new hname hroom

/-- Over a run each name is given the number that is found for it in the end. -/
theorem internAll (h : Reflects done table) (names : List String)
    (hroom : (done ++ names).toFinset.card < UInt32.size) :
    (table.internAll names).1.map some = names.map (table.internAll names).2.find? ∧
      Reflects (done ++ names) (table.internAll names).2 := by
  induction names generalizing done table with
  | nil => exact ⟨rfl, (List.append_nil done).symm ▸ h⟩
  | cons first rest ih =>
    have hfirst : done.toFinset.card < UInt32.size :=
      lt_of_le_of_lt (Finset.card_le_card (toFinset_subset_append done (first :: rest))) hroom
    have hstep := h.intern first hfirst
    rw [List.append_cons] at hroom
    obtain ⟨hids, hrest⟩ := ih hstep hroom
    rw [List.append_cons]
    refine ⟨?_, hrest⟩
    have hkept : some (table.intern first).1 =
        ((table.intern first).2.internAll rest).2.find? first := by
      have hid := hstep.find?_eq_some.mp (find?_intern_self table first)
      exact (hrest.find?_eq_some.mpr (hid.append rest)).symm
    exact congrArg₂ List.cons hkept hids

end Reflects
end NameTable

/-- Over every run of changes and of names: an object and a component have the type that was last
given to them. To an object is attached what was attached to it behind its first addition, each type
once and in the order of its first attachment, and nothing to an object that was never added. A name
has as its number how many different names were seen before it, from the first time it is seen on,
and a name that was not seen has none. The numbers of different names are different, and without a
gap. -/
theorem World.ofTables_reflects (functions : FunctionTable) (changes : List SceneChange)
    (names : List String) :
    let ids := (NameTable.internAll {} names).1
    let world := World.ofTables functions (SceneTable.run {} changes)
      (NameTable.internAll {} names).2
    (∀ name,
      world.objectType? name = (SceneChange.types .addObject name changes).getLast? ∧
      world.componentType? name = (SceneChange.types .addComponent name changes).getLast? ∧
      (world.attached name).Nodup ∧
      (SceneChange.types .addObject name changes = [] → world.attached name = []) ∧
      ∀ before type after, changes = before ++ ⟨.addObject, name, type⟩ :: after →
        SceneChange.types .addObject name before = [] →
        world.attached name = (SceneChange.types .attach name after).eraseDups) ∧
    (names.toFinset.card < UInt32.size →
      ids.map some = names.map world.identifier? ∧
      (∀ name, world.identifier? name = none ↔ name ∉ names) ∧
      (∀ name id, world.identifier? name = some id ↔ id.IsOf names name) ∧
      (∀ name other id, world.identifier? name = some id → world.identifier? other = some id →
        name = other) ∧
      ∀ number, (∃ name id, world.identifier? name = some id ∧ id.value.toNat = number) ↔
        number < names.toFinset.card) := by
  intro ids world
  have hscene : SceneTable.Reflects changes (SceneTable.run {} changes) :=
    SceneTable.Reflects.empty.run changes
  have hattached (name : String) :
      world.attached name = (SceneChange.attachments name changes).eraseDups :=
    hscene.attached name
  refine ⟨fun name => ⟨hscene.objectType? name, hscene.componentType? name, ?_, ?_, ?_⟩, ?_⟩
  · rw [hattached]
    exact nodup_eraseDups _
  · intro hnever
    rw [hattached, SceneChange.attachments_of_not_added hnever]
    rfl
  · rintro before type after rfl hfirst
    rw [hattached, SceneChange.attachments_append_of_not_added hfirst]
  · intro hroom
    obtain ⟨hids, hnames⟩ := NameTable.Reflects.empty.internAll names hroom
    refine ⟨hids, fun _ => hnames.find?_eq_none, fun _ _ => hnames.find?_eq_some, ?_, ?_⟩
    · intro name other id hname hother
      exact (hnames.find?_eq_some.mp hname).name_eq (hnames.find?_eq_some.mp hother)
    · intro number
      rw [← NameId.exists_isOf_iff hroom]
      exact exists₂_congr fun _ _ => and_congr_left' hnames.find?_eq_some

/-- What is attached too early or to another object leaves no trace, and an object that is added
again keeps what is attached to it. A name that is seen again keeps its number. -/
theorem World.ofTables_reflects_sample :
    let early : List SceneChange :=
      [⟨.addComponent, "Player", ⟨7⟩⟩, ⟨.attach, "Player", ⟨10⟩⟩, ⟨.attach, "Ghost", ⟨13⟩⟩]
    let late : List SceneChange :=
      [⟨.attach, "Player", ⟨12⟩⟩, ⟨.attach, "Player", ⟨11⟩⟩, ⟨.addObject, "Player", ⟨2⟩⟩,
        ⟨.attach, "Player", ⟨12⟩⟩]
    let changes := early ++ ⟨.addObject, "Player", ⟨1⟩⟩ :: late
    let names := ["Player", "Enemy", "Player", "Shop"]
    let world := World.ofTables {} (SceneTable.run {} changes) (NameTable.internAll {} names).2
    names.toFinset.card < UInt32.size ∧
    world.objectType? "Player" = some ⟨2⟩ ∧ world.componentType? "Player" = some ⟨7⟩ ∧
    world.attached "Player" = [⟨12⟩, ⟨11⟩] ∧ world.attached "Ghost" = [] ∧
    world.identifier? "Shop" = some ⟨2⟩ ∧ world.identifier? "Nobody" = none := by
  intro early late changes names world
  obtain ⟨hscene, hnames⟩ := World.ofTables_reflects {} changes names
  obtain ⟨hobject, hcomponent, -, -, hplayer⟩ := hscene "Player"
  obtain ⟨-, -, -, hghost, -⟩ := hscene "Ghost"
  have hroom : names.toFinset.card < UInt32.size := by decide
  obtain ⟨-, hnone, hsome, -, -⟩ := hnames hroom
  exact ⟨hroom, hobject, hcomponent, hplayer early ⟨1⟩ late rfl rfl, hghost rfl,
    (hsome "Shop" ⟨2⟩).mpr ⟨["Player", "Enemy", "Player"], [], rfl, by decide, by decide⟩,
    (hnone "Nobody").mpr (by decide)⟩

end SceneFormula
