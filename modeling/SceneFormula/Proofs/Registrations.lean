import Mathlib.Data.List.Basic
import SceneFormula.World.FunctionTable

namespace SceneFormula

/-- An item of a list that ends in another one is that one, or stands in front of it. -/
theorem concat_eq_append_cons_iff {α : Type} {items before after : List α} {last item : α} :
    items ++ [last] = before ++ item :: after ↔
      (items = before ∧ last = item ∧ after = []) ∨
        ∃ rest, items = before ++ item :: rest ∧ after = rest ++ [last] := by
  constructor
  · intro h
    rcases List.eq_nil_or_concat' after with rfl | ⟨rest, other, rfl⟩
    · obtain ⟨rfl, rfl⟩ := List.append_singleton_inj.mp h
      exact .inl ⟨rfl, rfl, rfl⟩
    · rw [← List.cons_append, ← List.append_assoc] at h
      obtain ⟨rfl, rfl⟩ := List.append_singleton_inj.mp h
      exact .inr ⟨rest, rfl, rfl⟩
  · rintro (⟨rfl, rfl, rfl⟩ | ⟨rest, rfl, rfl⟩)
    · rfl
    · simp

structure Registration where
  key : FunctionKey
  parameters : List Declaration
  deriving DecidableEq, Repr

/-- A signature is the latest one of a key: it has the number of registrations that came before its
own, and none behind that is of the key. -/
def Signature.IsLatest (done : List Registration) (key : FunctionKey) (signature : Signature) :
    Prop :=
  ∃ before after, done = before ++ ⟨key, signature.parameters⟩ :: after ∧
    signature.id.value.toNat = before.length ∧ ∀ other ∈ after, other.key ≠ key

namespace Signature
variable {done : List Registration} {key other : FunctionKey} {signature signature' : Signature}

/-- A further registration is the latest one of its own key, and of no other. -/
theorem isLatest_concat {registration : Registration} :
    signature.IsLatest (done ++ [registration]) key ↔
      if registration.key = key then
        signature.id.value.toNat = done.length ∧ signature.parameters = registration.parameters
      else signature.IsLatest done key := by
  constructor
  · rintro ⟨before, after, hdone, hid, hafter⟩
    rcases concat_eq_append_cons_iff.mp hdone with ⟨rfl, rfl, rfl⟩ | ⟨rest, rfl, rfl⟩
    · exact (if_pos rfl).mpr ⟨hid, rfl⟩
    · have hlast : registration.key ≠ key := hafter _ (List.mem_append_right _ (.head _))
      exact (if_neg hlast).mpr
        ⟨before, rest, rfl, hid, fun other ho => hafter other (List.mem_append_left _ ho)⟩
  · split
    · rename_i hkey
      rintro ⟨hid, hparameters⟩
      refine ⟨done, [], ?_, hid, nofun⟩
      rw [← hkey, hparameters]
    · rename_i hkey
      rintro ⟨before, rest, hdone, hid, hrest⟩
      refine ⟨before, rest ++ [registration],
        concat_eq_append_cons_iff.mpr (.inr ⟨rest, hdone, rfl⟩), hid, fun other ho => ?_⟩
      rcases List.mem_append.mp ho with ho | ho
      · exact hrest other ho
      · exact List.mem_singleton.mp ho ▸ hkey

/-- The number of a signature leads back to its key. -/
theorem IsLatest.key_eq (h : signature.IsLatest done key) (ho : signature'.IsLatest done other)
    (hid : signature.id = signature'.id) : key = other := by
  obtain ⟨before, after, hdone, hnumber, -⟩ := h
  obtain ⟨before', after', hdone', hnumber', -⟩ := ho
  have hlength : before.length = before'.length := by rw [← hnumber, ← hnumber', hid]
  obtain ⟨-, hrest⟩ := List.append_inj (hdone.symm.trans hdone') hlength
  exact congrArg Registration.key (List.cons.inj hrest).1

end Signature

namespace FunctionTable

def registerAll (table : FunctionTable) : List Registration → List FunctionRef × FunctionTable
  | [] => ([], table)
  | first :: rest =>
    let (id, next) := table.register first.key first.parameters
    let (ids, last) := next.registerAll rest
    (id :: ids, last)

structure Reflects (done : List Registration) (table : FunctionTable) : Prop where
  nextId : table.nextId.toNat = done.length
  find?_eq_none {key : FunctionKey} :
    table.find? key = none ↔ ∀ registration ∈ done, registration.key ≠ key
  find?_eq_some {key : FunctionKey} {signature : Signature} :
    table.find? key = some signature ↔ signature.IsLatest done key

namespace Reflects
variable {done : List Registration} {table : FunctionTable}

theorem empty : Reflects [] {} where
  nextId := rfl
  find?_eq_none := ⟨fun _ => nofun, fun _ => rfl⟩
  find?_eq_some := ⟨nofun, fun ⟨before, after, hdone, _⟩ => by simp at hdone⟩

/-- The registration is the latest one of its key, and all other keys keep theirs. -/
theorem register (h : Reflects done table) (registration : Registration)
    (hroom : done.length + 1 < UInt32.size) :
    Reflects (done ++ [registration])
      (table.register registration.key registration.parameters).2 where
  nextId := by
    have hnext : (table.nextId + 1).toNat = done.length + 1 := by
      rw [UInt32.toNat_add, h.nextId]
      exact Nat.mod_eq_of_lt hroom
    simpa [FunctionTable.register] using hnext
  find?_eq_none {key} := by
    by_cases hkey : registration.key = key
    · subst hkey
      simp [find?_register_self]
    · rw [find?_register_of_ne table _ (Ne.symm hkey), h.find?_eq_none]
      simp [or_imp, forall_and, hkey]
  find?_eq_some {key signature} := by
    rw [Signature.isLatest_concat]
    by_cases hkey : registration.key = key
    · subst hkey
      rw [find?_register_self, if_pos rfl, ← h.nextId, UInt32.toNat_inj]
      constructor
      · rintro ⟨⟩
        exact ⟨rfl, rfl⟩
      · rintro ⟨hid, hparameters⟩
        rw [← hid, ← hparameters]
    · rw [find?_register_of_ne table _ (Ne.symm hkey), if_neg hkey, h.find?_eq_some]

/-- Over a run the numbers are counted up. -/
theorem registerAll (h : Reflects done table) (registrations : List Registration)
    (hroom : done.length + registrations.length < UInt32.size) :
    (table.registerAll registrations).1.map (·.value.toNat) =
        List.range' done.length registrations.length ∧
      Reflects (done ++ registrations) (table.registerAll registrations).2 := by
  induction registrations generalizing done table with
  | nil => exact ⟨rfl, (List.append_nil done).symm ▸ h⟩
  | cons first rest ih =>
    rw [List.length_cons] at hroom
    have hstep := h.register first (by omega)
    have hlength : (done ++ [first]).length = done.length + 1 := List.length_append
    obtain ⟨hids, hrest⟩ := ih hstep (by omega)
    rw [List.append_assoc] at hrest
    refine ⟨?_, hrest⟩
    rw [hlength] at hids
    exact congrArg₂ List.cons h.nextId hids

end Reflects

/-- Over every run of registrations of free functions, functions of objects and functions of
components, the registrations are numbered from 0 in their order. What is found under a key is the
latest registration of that key, whatever was registered under others, and nothing where there was
none. Different keys never lead to the same number. -/
theorem registerAll_latest (registrations : List Registration)
    (h : registrations.length < UInt32.size) :
    let ids := (registerAll {} registrations).1
    let table := (registerAll {} registrations).2
    ids.map (·.value.toNat) = List.range registrations.length ∧
    (∀ key, table.find? key = none ↔ ∀ registration ∈ registrations, registration.key ≠ key) ∧
    (∀ key signature, table.find? key = some signature ↔ signature.IsLatest registrations key) ∧
    ∀ key other signature signature', table.find? key = some signature →
      table.find? other = some signature' → key ≠ other → signature.id ≠ signature'.id := by
  intro ids table
  obtain ⟨hids, hreflects⟩ := Reflects.empty.registerAll registrations
    (by simpa using h)
  refine ⟨?_, fun _ => hreflects.find?_eq_none, fun _ _ => hreflects.find?_eq_some, ?_⟩
  · rw [List.range_eq_range']
    exact hids
  · intro key other signature signature' hfound hother hne hid
    exact hne ((hreflects.find?_eq_some.mp hfound).key_eq (hreflects.find?_eq_some.mp hother) hid)

/-- An object type and a component type with the same number do not share their functions, and a
function that is registered again is found by its new number. -/
theorem registerAll_latest_same_number :
    let ofObject : FunctionKey := ⟨.number, .object ⟨1⟩, "Speed"⟩
    let ofComponent : FunctionKey := ⟨.number, .component ⟨1⟩, "Speed"⟩
    let registrations : List Registration :=
      [⟨ofObject, [⟨.object, false⟩]⟩, ⟨ofComponent, [⟨.object, false⟩, ⟨.automatism, false⟩]⟩,
        ⟨⟨.number, .free, "Speed"⟩, []⟩, ⟨ofObject, [⟨.object, false⟩, ⟨.expression, true⟩]⟩,
        ⟨⟨.text, .object ⟨1⟩, "Speed"⟩, [⟨.object, false⟩]⟩]
    let table := (registerAll {} registrations).2
    registrations.length < UInt32.size ∧
    table.find? ofObject = some ⟨⟨3⟩, [⟨.object, false⟩, ⟨.expression, true⟩]⟩ ∧
    table.find? ofComponent = some ⟨⟨1⟩, [⟨.object, false⟩, ⟨.automatism, false⟩]⟩ ∧
    table.find? ⟨.text, .component ⟨1⟩, "Speed"⟩ = none := by
  intro ofObject ofComponent registrations table
  have hroom : registrations.length < UInt32.size := by decide
  obtain ⟨-, hnone, hlatest, -⟩ := registerAll_latest registrations hroom
  refine ⟨hroom, (hlatest _ _).mpr ?_, (hlatest _ _).mpr ?_, (hnone _).mpr (by decide)⟩
  · exact ⟨registrations.take 3, registrations.drop 4, rfl, rfl, by decide⟩
  · exact ⟨registrations.take 1, registrations.drop 2, rfl, rfl, by decide⟩

end FunctionTable
end SceneFormula
