import SceneFormula.Proofs.PairedRuns

/-! Names that a text does not mention cannot matter. All that compiling asks of a world is about
names that the text mentions, at every level of nesting: the names of its calls, both sides of a
`::`, its parameters, and the decoded names of its objects. -/
namespace SceneFormula

def FaultRelation.same : FaultRelation where
  Relates := Eq
  movedBy h base := congrArg (·.movedBy base) h
  self _ _ := rfl

theorem eq_of_paired {α : Type} {excess? : α → Option Excess} {one other : Except Fault α}
    (h : Paired FaultRelation.same.pairing excess? one other) : one = other := by
  rcases FaultRelation.of_paired h with ⟨value, rfl, rfl⟩ | ⟨fault, other, rfl, rfl, rfl⟩ <;> rfl

theorem paired_of_eq {α : Type} {one other : Except Fault α} (h : one = other) :
    Paired FaultRelation.same.pairing (fun _ => none) one other := by
  subst h
  cases one with
  | ok value => exact .kept rfl
  | error fault => exact FaultRelation.paired rfl

/-- Compilers of as many levels agree on a text if the worlds do. What the text hands to the
compilers of the next level is mentioned by it. -/
theorem Compilers.ofLevels_eq_on {one other : Context} (ho : one.options = other.options)
    (left : Nat) {raw : String} (h : one.world.AgreeOn raw.toList other.world) :
    (ofLevels one left).number raw = (ofLevels other left).number raw ∧
      (ofLevels one left).text raw = (ofLevels other left).text raw := by
  induction left generalizing raw with
  | zero => simp only [ofLevels, ho, and_self]
  | succ left ih =>
    have hmentioned {part : String} (hm : Mentions raw.toList part.toList) :
        (ofLevels one left).Paired FaultRelation.same.pairing .none (ofLevels other left) part :=
      ⟨paired_of_eq (ih (h.of_mentions hm)).1,
        paired_of_eq (ih (h.of_mentions hm)).2⟩
    have hruns : FaultRelation.same.pairing.TextRuns .none raw.toList one other (ofLevels one left)
        (ofLevels other left) :=
      { world := h
        surplus := .same (ho ▸ rfl) fun _ => ⟨_, rfl, rfl⟩
        argument := fun ht hopen argument ha =>
          hmentioned (.trans (.of_part ht.isInfix) (mentions_argument hopen argument ha))
        receiver := fun ht hn hr receiver hm => hmentioned (.trans (.of_part ht.isInfix)
          (World.mentions_receiver hr (Callee.mentions_receiver hn)
            (Callee.mentions_function hn) receiver hm))
        number := fun ht hn _ _ part hp => (hmentioned (hp ▸
          .of_part ((Callee.written_take_part hn _).trans ht.isInfix))).number }
    refine ⟨eq_of_paired (NumericForm.compileWith_paired hruns.toRuns (fun _ => none)
      (fun _ => rfl) fun _ _ => paired_of_eq ?_), eq_of_paired (TextForm.compileWith_paired hruns)⟩
    rw [ho]

def Tables.sample : Tables where
  functions :=
    { entries :=
      [(⟨.number, .free, "Count"⟩, ⟨⟨0⟩, [⟨.text, false⟩]⟩),
        (⟨.number, .object ⟨1⟩, "X"⟩, ⟨⟨1⟩, [⟨.object, false⟩]⟩),
        (⟨.text, .component ⟨2⟩, "State"⟩, ⟨⟨2⟩, [⟨.object, false⟩, ⟨.automatism, false⟩]⟩)]
      nextId := 3 }
  scene :=
    { objects := [("Player", ⟨⟨1⟩, [⟨2⟩]⟩), ("Red Box", ⟨⟨1⟩, []⟩)]
      components := [("Physics", ⟨2⟩)] }
  names := ⟨["Player"]⟩

namespace Context

private theorem compile_eq_on {one other : Context} {source : String}
    (h : one.world.AgreeOn source.toList other.world) (ho : one.options = other.options) :
    one.compileNumber source = other.compileNumber source ∧
      one.compileText source = other.compileText source := by
  simp only [compileNumber, compileText, compilersAt, ho]
  exact Compilers.ofLevels_eq_on ho _ h

/-- What a text compiles to, a form or a fault, is determined by the options and by what the world
says about the names that the text mentions. Whatever the tables of a world gain under other names
changes nothing. -/
theorem compile_determined_by_mentions (source : String) :
    (∀ one other : Context, one.options = other.options →
      one.world.AgreeOn source.toList other.world →
      one.compileNumber source = other.compileNumber source ∧
        one.compileText source = other.compileText source) ∧
    ∀ (options : Options) (tables : Tables) (additions : List Addition),
      (∀ addition ∈ additions, ¬ Mentions source.toList addition.name.toList) →
      ((additions.foldl .add tables).context options).compileNumber source =
          (tables.context options).compileNumber source ∧
        ((additions.foldl .add tables).context options).compileText source =
          (tables.context options).compileText source := by
  refine ⟨fun one other ho h => compile_eq_on h ho, fun options tables additions h => ?_⟩
  have hworld : ((additions.foldl .add tables).context options).world.AgreeOn source.toList
      (tables.context options).world := tables.foldl_add_agreeOn h
  exact compile_eq_on hworld rfl

/-- A world that gains names close to those of a text, and one name in three ways. -/
theorem compile_determined_by_mentions_sample :
    let source := "Red~Box.X() + Count(Player.Physics::State())"
    let additions : List Addition :=
      [.function ⟨.number, .free, "Counts"⟩ [], .function ⟨.text, .object ⟨1⟩, "Y"⟩ [],
        .object "Red  Box" ⟨3⟩, .attachment "Red  Box" ⟨2⟩, .component "Red  Box" ⟨1⟩,
        .identifier "Box Red"]
    let grown := additions.foldl Tables.add .sample
    (∀ addition ∈ additions, ¬ Mentions source.toList addition.name.toList) ∧
      grown.world.objectType? "Red  Box" = some ⟨3⟩ ∧
      Tables.sample.world.objectType? "Red  Box" = none ∧
      grown.world.AgreeOn source.toList Tables.sample.world ∧
      (grown.context {}).compileNumber source = (Tables.sample.context {}).compileNumber source ∧
      (grown.context {}).compileText source = (Tables.sample.context {}).compileText source := by
  intro source additions grown
  have hunmentioned : ∀ addition ∈ additions, ¬ Mentions source.toList addition.name.toList := by
    decide +kernel
  have hworld := Tables.sample.foldl_add_agreeOn hunmentioned
  have hnumber := (compile_determined_by_mentions source).1 (grown.context {})
    (Tables.sample.context {}) rfl hworld
  have htext := (compile_determined_by_mentions source).2 {} .sample additions hunmentioned
  exact ⟨hunmentioned, by decide, by decide, hworld, hnumber.1, htext.2⟩

end Context
end SceneFormula
