import SceneFormula.Proofs.Precedence

/-! How high terms grow under a limit on levels. Parentheses, arguments, signs and exponents are
charged a level each, but operators of one rank that lean to the left are not: a row of them makes
a term that is as high as the row is long. Apart from such rows the limit bounds the height. -/
namespace SceneFormula.Arithmetic

namespace Term

mutual
/-- How deep a term nests, which is how deep its evaluation and its folding recurse. -/
def height : Term → Nat
  | number _ | var _ => 1
  | unary _ operand => operand.height + 1
  | binary _ left right => max left.height right.height + 1
  | call _ arguments => heightAll arguments + 1

def heightAll : List Term → Nat
  | [] => 0
  | term :: rest => max term.height (heightAll rest)
end

/-- How many operators of a rank stand in a row on the left side of a term, itself included. A power
does not lean to the left. -/
def row (rank : Rank) : Term → Nat
  | binary op left _ => if op ≠ .power ∧ op.rank = rank then left.row rank + 1 else 0
  | _ => 0

mutual
def longestRow : Term → Nat
  | number _ | var _ => 0
  | unary _ operand => operand.longestRow
  | binary op left right =>
    max ((binary op left right).row op.rank) (max left.longestRow right.longestRow)
  | call _ arguments => longestRowAll arguments

def longestRowAll : List Term → Nat
  | [] => 0
  | term :: rest => max term.longestRow (longestRowAll rest)
end

theorem row_lt_height (rank : Rank) : ∀ term : Term, term.row rank < term.height
  | number _ | var _ => Nat.one_pos
  | unary _ _ => Nat.succ_pos _
  | call _ _ => Nat.succ_pos _
  | binary op left right => by
    have hleft := row_lt_height rank left
    rw [row, height]
    split <;> omega

theorem row_le_longestRow (rank : Rank) (term : Term) : term.row rank ≤ term.longestRow := by
  cases term with
  | number | var | unary | call => exact Nat.zero_le _
  | binary op left right =>
    by_cases hr : op.rank = rank
    · rw [longestRow, hr]
      exact Nat.le_max_left _ _
    · rw [row, if_neg fun h => hr h.2]
      exact Nat.zero_le _

mutual
theorem longestRow_lt_height : ∀ term : Term, term.longestRow < term.height
  | number _ | var _ => Nat.one_pos
  | unary _ operand => Nat.lt_succ_of_lt (longestRow_lt_height operand)
  | call _ arguments => Nat.lt_succ_of_le (longestRowAll_le_heightAll arguments)
  | binary op left right => by
    have hrow := row_lt_height op.rank (binary op left right)
    have hleft := longestRow_lt_height left
    have hright := longestRow_lt_height right
    rw [longestRow]
    rw [height] at hrow ⊢
    omega

theorem longestRowAll_le_heightAll : ∀ terms : List Term, longestRowAll terms ≤ heightAll terms
  | [] => Nat.le_refl 0
  | term :: rest => by
    have hterm := longestRow_lt_height term
    have hrest := longestRowAll_le_heightAll rest
    rw [longestRowAll, heightAll]
    omega
end

end Term

namespace Rank

/-- How high a term of a rank is with no level in it, but for the row that it stands in, if rows are
at most `row` long. Each looser rank has one more row to hang on. -/
def reach (row : Nat) : Rank → Nat
  | or => 5 * row + 2
  | and => 4 * row + 2
  | equality => 3 * row + 2
  | order => 2 * row + 2
  | sum => row + 2
  | product | sign | power => 2
  | primary => 1

/-- Signs, powers and primary terms stand in no row. -/
private theorem row_eq_zero {rank : Rank} (h : rank = sign ∨ rank = power ∨ rank = primary)
    (term : Term) : term.row rank = 0 := by
  cases term with
  | number | var | unary | call => rfl
  | binary op =>
    refine if_neg fun hop => ?_
    obtain ⟨hop, rfl⟩ := hop
    cases op <;> simp_all [Operator.rank]

/-- A term of the next tighter rank is no higher. -/
theorem row_add_reach_tighter_le {row : Nat} {term : Term} (h : term.longestRow ≤ row)
    (rank : Rank) : term.row rank.tighter + rank.tighter.reach row ≤ rank.reach row := by
  have hrow := Nat.le_trans (term.row_le_longestRow rank.tighter) h
  cases rank with
  | or | and | equality | order | sum =>
    simp only [tighter, reach] at hrow ⊢
    omega
  | product | sign | power | primary =>
    rw [row_eq_zero (by simp [tighter])]
    simp [tighter, reach]

end Rank

section Heights
variable {parameters : List String} {row : Nat}

mutual
/-- Each level adds at most the rows of all its ranks and two more. -/
private theorem Ranked.height_le : ∀ {levels : Nat} {rank : Rank} {kinds : List TokenKind}
    {term : Term}, Ranked parameters levels rank kinds term → term.longestRow ≤ row →
      term.height ≤ term.row rank + rank.reach row + levels * (6 * row + 2)
  | _, rank, _, term, .tighter h, hrow => by
    have hterm := h.height_le hrow
    have hreach := Rank.row_add_reach_tighter_le hrow rank
    omega
  | _, _, _, .binary _ left right, .binary op hop hl hr, hrow => by
    rw [Term.longestRow] at hrow
    have hlong : right.longestRow ≤ row := by omega
    have hleft := hl.height_le (by omega)
    have hright := hr.height_le hlong
    have hreach := Rank.row_add_reach_tighter_le hlong op.rank
    rw [Term.height, Term.row, if_pos ⟨hop, rfl⟩]
    omega
  | _ + 1, _, _, _, .sign op h, hrow => by
    have hoperand := h.height_le hrow
    rw [Rank.row_eq_zero (.inl rfl), Rank.reach] at hoperand
    rw [Term.height, Rank.reach, Nat.succ_mul]
    omega
  | _ + 1, _, _, .binary _ base exponent, .power hb he, hrow => by
    rw [Term.longestRow] at hrow
    have hbase := hb.height_le (by omega)
    have hexponent := he.height_le (by omega)
    rw [Rank.row_eq_zero (.inr (.inr rfl)), Rank.reach] at hbase
    rw [Rank.row_eq_zero (.inl rfl), Rank.reach] at hexponent
    rw [Term.height, Rank.reach]
    rw [Nat.succ_mul] at hbase ⊢
    omega
  | _, _, _, _, .number _, _ => by
    rw [Term.height, Rank.reach]
    omega
  | _, _, _, _, .parameter _, _ => by
    rw [Term.height, Rank.reach]
    omega
  | _, _, _, _, .constant _ _, _ => by
    rw [Term.height, Rank.reach]
    omega
  | _ + 1, _, _, term, .group h, hrow => by
    have hinner := h.height_le hrow
    have hterm := term.row_le_longestRow .or
    rw [Rank.reach] at hinner
    rw [Nat.succ_mul, Rank.reach]
    omega
  | _ + 1, _, _, _, .call _ h _, hrow => by
    have hterms := h.heightAll_le hrow
    rw [Term.height, Rank.reach]
    omega
  | _, _, _, _, .bareCall _ _, _ => by
    rw [Term.height, Term.heightAll, Rank.reach]
    omega

private theorem RankedEach.heightAll_le : ∀ {levels : Nat} {kinds : List TokenKind}
    {terms : List Term}, RankedEach parameters levels kinds terms →
      Term.longestRowAll terms ≤ row →
        Term.heightAll terms ≤ (levels + 1) * (6 * row + 2)
  | _, _, [term], .last h, hrow => by
    rw [Term.longestRowAll] at hrow
    have hterm := h.height_le (by omega)
    have hlean := term.row_le_longestRow .or
    rw [Rank.reach] at hterm
    rw [Term.heightAll, Term.heightAll, Nat.succ_mul]
    omega
  | _, _, term :: rest, .more h ht, hrow => by
    rw [Term.longestRowAll] at hrow
    have hterm := h.height_le (by omega)
    have hrest := ht.heightAll_le (by omega)
    have hlean := term.row_le_longestRow .or
    rw [Rank.reach] at hterm
    rw [Term.heightAll]
    rw [Nat.succ_mul] at hrest ⊢
    omega
end

end Heights

namespace Program

def sumText : Nat → List Char
  | 0 => ['1']
  | count + 1 => sumText count ++ ['+', '1']

private theorem getLast?_sumText (count : Nat) : (sumText count).getLast? = some '1' := by
  cases count with
  | zero => rfl
  | succ count => simp [sumText]

/-- However few levels may nest, a sum as high as it is long is read. -/
private theorem exists_sum (limit count : Nat) :
    ∃ kinds term, Lexes (sumText count) kinds ∧ Ranked [] limit .sum kinds term ∧
      term.height = count + 1 := by
  let one := decimalValue ['1'] []
  have hread : Lexeme.read? ['1'] = some ⟨.number one, ['1'], []⟩ := rfl
  have hone : Lexes ['1'] [.number one] := .lexeme rfl hread .done
  have hnumber : Ranked [] limit .product [.number one] (.number one) :=
    .tighter (.tighter (.tighter (.number one)))
  induction count with
  | zero => exact ⟨_, _, hone, .tighter hnumber, rfl⟩
  | succ count ih =>
    obtain ⟨kinds, term, hlexes, hranked, hheight⟩ := ih
    refine ⟨_, _, ?_, .binary .add nofun hranked hnumber, ?_⟩
    · have hplus : Lexes (Symbol.plus.spelling ++ ['1']) [.symbol .plus, .number one] :=
        Lexes.symbol_append nofun hone
      refine hlexes.append hplus ?_
      intro a ha b hb
      rw [getLast?_sumText] at ha
      obtain rfl := Option.some.inj ha
      obtain rfl := Option.some.inj hb
      rfl
    · rw [Term.height, hheight]
      simp [Term.height]

/-- For each limit there are accepted texts of any height. -/
theorem exists_height_eq (limit count : Nat) :
    ∃ program, parse (String.ofList (sumText count)) [] limit = .ok program ∧
      program.term.height = count + 1 := by
  obtain ⟨kinds, term, hlexes, hranked, hheight⟩ := exists_sum limit count
  have hwhole : Ranked [] limit .or kinds term := .tighter (.tighter (.tighter (.tighter hranked)))
  refine ⟨⟨String.ofList (sumText count), [], term⟩, parse_eq_ok_iff.mpr ?_, hheight⟩
  exact ⟨kinds, term, by rwa [String.toList_ofList], ranked_iff_derives.mp hwhole, rfl⟩

/-- A limit on levels bounds the height of what is accepted by the longest row of operators that
lean to the left, and by nothing less: among any texts the heights are bounded if and only if the
rows are. -/
theorem heights_bounded_iff (limit : Nat) :
    (∀ source parameters program, parse source parameters limit = .ok program →
      program.term.longestRow < program.term.height ∧
      program.term.height ≤ (limit + 1) * (6 * program.term.longestRow + 2)) ∧
    ∀ texts : String → List String → Prop,
      (∃ bound, ∀ source parameters program, texts source parameters →
        parse source parameters limit = .ok program → program.term.height ≤ bound) ↔
      ∃ bound, ∀ source parameters program, texts source parameters →
        parse source parameters limit = .ok program → program.term.longestRow ≤ bound := by
  have hbound (source : String) (parameters : List String) (program : Program)
      (h : parse source parameters limit = .ok program) :
      program.term.height ≤ (limit + 1) * (6 * program.term.longestRow + 2) := by
    obtain ⟨kinds, term, -, hderives, rfl⟩ := parse_eq_ok_iff.mp h
    have hheight := (ranked_iff_derives.mpr hderives).height_le (Nat.le_refl _)
    have hrow := term.row_le_longestRow .or
    rw [Rank.reach] at hheight
    rw [Nat.succ_mul]
    change term.height ≤ limit * (6 * term.longestRow + 2) + (6 * term.longestRow + 2)
    omega
  refine ⟨fun source parameters program h =>
    ⟨program.term.longestRow_lt_height, hbound source parameters program h⟩, fun texts => ⟨?_, ?_⟩⟩
  · rintro ⟨bound, hall⟩
    refine ⟨bound, fun source parameters program ht h => ?_⟩
    exact Nat.le_trans (Nat.le_of_lt program.term.longestRow_lt_height)
      (hall source parameters program ht h)
  · rintro ⟨bound, hall⟩
    refine ⟨(limit + 1) * (6 * bound + 2), fun source parameters program ht h => ?_⟩
    have hrow := hall source parameters program ht h
    exact Nat.le_trans (hbound source parameters program h)
      (Nat.mul_le_mul_left _ (Nat.add_le_add_right (Nat.mul_le_mul_left 6 hrow) 2))

/-- A sum of three ones, which needs no level. -/
theorem heights_bounded_iff_sample :
    ∃ program, parse "1+1+1" [] 0 = .ok program ∧ program.term.height = 3 ∧
      program.term.longestRow < program.term.height ∧
      program.term.height ≤ (0 + 1) * (6 * program.term.longestRow + 2) := by
  have htext : String.ofList (sumText 2) = "1+1+1" := by decide
  obtain ⟨program, hparse, hheight⟩ := exists_height_eq 0 2
  rw [htext] at hparse
  exact ⟨program, hparse, hheight, (heights_bounded_iff 0).1 _ _ _ hparse⟩

/-- No limit on levels bounds the height by itself: a sum needs no level, however long it is. -/
theorem not_heights_bounded :
    ¬ ∀ limit, ∃ bound, ∀ source parameters program,
      parse source parameters limit = .ok program → program.term.height ≤ bound := by
  intro h
  obtain ⟨bound, hall⟩ := h 0
  obtain ⟨program, hparse, hheight⟩ := exists_height_eq 0 bound
  have hle := hall _ _ program hparse
  omega

end Program
end SceneFormula.Arithmetic
