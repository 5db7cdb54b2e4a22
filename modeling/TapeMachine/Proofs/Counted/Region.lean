/-
**The region that is made of a loop body.**

* `Code.fuse`: the region of the woven body, or the single `store`;
* `Code.straight_weave`: what is woven may stand inside of a region;
* `Code.Counted.proper_fuse`: so what a counted loop is replaced by is made as drafts are;
* `Code.Counted.improves_fuse`: it does what all turns of the loop do.
-/

import TapeMachine.Proofs.Counted.Rounds

namespace TapeMachine

instance Code.decidableLeaf : (code : Code) → Decidable code.Leaf
  | empty => .isTrue trivial
  | plain before _ => before.decidableLeaf
  | loop before _ => before.decidableLeaf
  | region _ _ _ => .isFalse id

/-- The inside of the region, with the head back at the counter. -/
def Code.woven (body : Code) : Code := (body.weave.moveTo body.shift).code

/-- What a counted loop is replaced by: a `store`, if one product is all there is, or else a region,
which uses the stack if there are regions inside of it. -/
def Code.fuse (body : Code) : Code :=
  match body.woven with
  | .plain .empty product =>
    if product.opcode = .multiply then
      Code.empty.plain { opcode := .store, value := product.value, offset := product.offset }
    else Code.empty.region (decide body.Leaf) body.woven
  | _ => Code.empty.region (decide body.Leaf) body.woven

theorem Code.fuse_cases (body : Code) :
    (∃ product, body.woven = Code.empty.plain product ∧ product.opcode = .multiply ∧
      body.fuse =
        Code.empty.plain { opcode := .store, value := product.value, offset := product.offset }) ∨
      (∀ product, body.woven = Code.empty.plain product → product.opcode ≠ .multiply) ∧
        body.fuse = Code.empty.region (decide body.Leaf) body.woven := by
  unfold fuse
  split
  · next product same =>
    by_cases opcode : product.opcode = .multiply
    · rw [if_pos opcode]
      exact .inl ⟨product, same, opcode, rfl⟩
    · rw [if_neg opcode]
      refine .inr ⟨fun other equal => ?_, rfl⟩
      rw [same] at equal
      cases equal
      exact opcode
  · next other =>
    exact .inr ⟨fun product equal => (other product equal).elim, rfl⟩

/-! ### What is woven -/

namespace Woven

theorem shift_moveTo {woven : Woven} (level : woven.code.shift = woven.cursor) (target : Int) :
    (woven.moveTo target).code.shift = target := by
  unfold moveTo
  split
  · next same => rw [level, same]
  · simp only [Code.shift, Instruction.shift, level]
    omega

theorem leaf_moveTo {woven : Woven} {target : Int} :
    (woven.moveTo target).code.Leaf ↔ woven.code.Leaf := by
  unfold moveTo
  split <;> rfl

theorem straight_moveTo {woven : Woven} (straight : woven.code.Straight true) (target : Int) :
    (woven.moveTo target).code.Straight true := by
  unfold moveTo
  split
  · exact straight
  · next apart =>
    exact ⟨straight, .inl (List.mem_cons_self ..),
      .of_amount List.mem_cons_self fun none => apart (Int.eq_of_sub_eq_zero none)⟩

theorem touches_moveTo {woven : Woven} {target cell : Int} :
    (woven.moveTo target).code.Touches cell ↔ woven.code.Touches cell := by
  unfold moveTo
  split
  · rfl
  · rw [Code.touches_plain]
    simp [Instruction.Works, Instruction.Targets, Instruction.Assigns]

end Woven

namespace Code

/-- An instruction is left out or becomes a product, or it is written where the body has the head. -/
theorem weave_plain_cases {inner : Bool} {before : Code} {instruction : Instruction}
    (straight : instruction.opcode.IsStraight inner) :
    (before.plain instruction).weave = before.weave ∨
      (∃ target, (instruction.opcode = .multiply ∧ target = before.shift + instruction.offset ∨
        instruction.opcode = .add ∧ target = before.shift ∧ target ≠ 0) ∧
          (before.plain instruction).weave = before.weave.multiply instruction.value target) ∨
      instruction.opcode ∈ [.store, .set, .reset] ∧ (before.plain instruction).weave =
        ⟨(before.weave.moveTo before.shift).code.plain instruction,
          before.shift + instruction.shift⟩ := by
  rcases instruction with ⟨opcode, value, offset, link⟩
  cases opcode with
  | move => exact .inl rfl
  | add =>
    by_cases counter : before.shift = 0
    · exact .inl (if_pos counter)
    · exact .inr (.inl ⟨_, .inr ⟨rfl, rfl, counter⟩, if_neg counter⟩)
  | multiply => exact .inr (.inl ⟨_, .inl ⟨rfl, rfl⟩, rfl⟩)
  | store | set | reset => exact .inr (.inr ⟨by simp, rfl⟩)
  | _ => cases inner <;> simp [Opcode.IsStraight] at straight

theorem shift_weave {inner : Bool} {code : Code} (straight : code.Straight inner) :
    code.weave.code.shift = code.weave.cursor := by
  induction code generalizing inner with
  | empty => rfl
  | plain before instruction ih =>
    have early := ih straight.1
    rcases weave_plain_cases straight.2.1 with same | ⟨target, -, same⟩ | ⟨-, same⟩
    · rw [same, early]
    · rw [same]
      simp only [Woven.multiply, Woven.write, shift, Instruction.shift, early, Int.add_zero]
    · rw [same]
      simp only [shift, Woven.shift_moveTo early]
  | loop before body _ _ => exact straight.elim
  | region before fast body ihBefore ihBody =>
    simp only [weave, shift, Woven.shift_moveTo (ihBefore straight.1),
      Woven.shift_moveTo (ihBody straight.2.2.2.1)]

theorem leaf_weave {inner : Bool} {code : Code} (straight : code.Straight inner) :
    code.weave.code.Leaf ↔ code.Leaf := by
  induction code generalizing inner with
  | empty => rfl
  | plain before instruction ih =>
    have early := ih straight.1
    rcases weave_plain_cases straight.2.1 with same | ⟨target, -, same⟩ | ⟨-, same⟩
    · rw [same]
      exact early
    · rw [same]
      exact early
    · rw [same]
      exact Woven.leaf_moveTo.trans early
  | loop before body _ _ => exact straight.elim
  | region before fast body _ _ => rfl

/-- What is woven works where the code does, and where it adds to a cell other than the counter. -/
theorem touches_of_weave {inner : Bool} {code : Code} (straight : code.Straight inner) {cell : Int}
    (touches : code.weave.code.Touches cell) :
    code.Touches cell ∨ code.Adds cell ∧ cell ≠ 0 := by
  induction code generalizing inner cell with
  | empty => exact .inl touches
  | plain before instruction ih =>
    have early {cell : Int} (touches : before.weave.code.Touches cell) :
        (before.plain instruction).Touches cell ∨
          (before.plain instruction).Adds cell ∧ cell ≠ 0 :=
      (ih straight.1 touches).imp (fun old => touches_plain.mpr (.inl old)) (And.imp_left .inl)
    have level := shift_weave straight.1
    rcases weave_plain_cases straight.2.1 with same | ⟨target, product, same⟩ | ⟨busy, same⟩
    · rw [same] at touches
      exact early touches
    · rw [same, Woven.multiply, Woven.write, touches_plain, level] at touches
      rcases touches with old | new
      · exact early old
      · have here : cell = target := by
          simp [Instruction.Works, Instruction.Targets, Instruction.Assigns] at new
          omega
        subst here
        rcases product with ⟨opcode, rfl⟩ | ⟨opcode, rfl, off⟩
        · refine .inl (touches_plain.mpr (.inr (.inl ⟨.inr opcode, ?_⟩)))
          omega
        · exact .inr ⟨.inr ⟨opcode, rfl⟩, off⟩
    · rw [same, touches_plain, Woven.shift_moveTo level] at touches
      rcases touches with old | new
      · exact early (Woven.touches_moveTo.mp old)
      · exact .inl (touches_plain.mpr (.inr new))
  | loop before body _ _ => exact straight.elim
  | region before fast body ihBefore ihBody =>
    obtain ⟨outer, -, -, inside, -, -⟩ := straight
    rw [weave, touches_region, Woven.shift_moveTo (shift_weave outer), Woven.touches_moveTo,
      Woven.touches_moveTo] at touches
    rcases touches with old | here | new
    · exact (ihBefore outer old).imp_left fun old => touches_region.mpr (.inl old)
    · exact .inl (touches_region.mpr (.inr (.inl here)))
    · rcases ihBody inside new with new | adds
      · exact .inl (touches_region.mpr (.inr (.inr new)))
      · exact (not_adds_of_straight inside _ adds.1).elim

theorem straight_weave {inner : Bool} {code : Code} (straight : code.Straight inner) :
    code.weave.code.Straight true := by
  induction code generalizing inner with
  | empty => trivial
  | plain before instruction ih =>
    have early := ih straight.1
    rcases weave_plain_cases straight.2.1 with same | ⟨target, -, same⟩ | ⟨busy, same⟩
    · rw [same]
      exact early
    · rw [same]
      exact ⟨early, .inr rfl, .of_product List.mem_cons_self _ _⟩
    · rw [same]
      exact ⟨Woven.straight_moveTo early _, .inl (List.mem_cons_of_mem _ busy), straight.2.2⟩
  | loop before body _ _ => exact straight.elim
  | region before fast body ihBefore ihBody =>
    obtain ⟨outer, -, -, inside, back, alone⟩ := straight
    refine ⟨Woven.straight_moveTo (ihBefore outer) _, fun _ => rfl, by rintro ⟨⟩,
      Woven.straight_moveTo (ihBody inside) _, ?_, fun touches => ?_⟩
    · rw [Woven.shift_moveTo (shift_weave inside), back]
    · rw [Woven.touches_moveTo] at touches
      rcases touches_of_weave inside touches with old | adds
      · exact alone old
      · exact adds.2 rfl

/-! ### What the loop is replaced by -/

namespace Counted

variable {body : Code} (counted : body.Counted)

include counted

theorem straight_woven : body.woven.Straight true :=
  Woven.straight_moveTo (straight_weave counted.straight) _

theorem shift_woven : body.woven.shift = 0 := by
  rw [woven, Woven.shift_moveTo (shift_weave counted.straight), counted.back]

theorem leaf_woven : body.woven.Leaf ↔ body.Leaf :=
  Woven.leaf_moveTo.trans (leaf_weave counted.straight)

theorem not_touches_woven : ¬ body.woven.Touches 0 := by
  intro touches
  rcases touches_of_weave counted.straight (Woven.touches_moveTo.mp touches) with old | adds
  · exact counted.apart old
  · exact adds.2 rfl

/-- The region may stand where the loop stood. -/
theorem straight_region : (Code.empty.region (decide body.Leaf) body.woven).Straight false :=
  ⟨trivial, by rintro ⟨⟩, fun leaf => (leaf_woven counted).mpr (of_decide_eq_true leaf),
    straight_woven counted, shift_woven counted, not_touches_woven counted⟩

theorem straight_fuse : body.fuse.Straight false := by
  rcases body.fuse_cases with ⟨product, -, -, same⟩ | ⟨-, same⟩
  · rw [same]
    exact ⟨trivial, .inl (by simp), .of_product (by simp) _ _⟩
  · rw [same]
    exact straight_region counted

theorem proper_fuse : body.fuse.Proper := by
  rcases body.fuse_cases with ⟨product, -, -, same⟩ | ⟨-, same⟩
  · rw [same]
    exact ⟨trivial, by simp, .of_product (by simp) _ _⟩
  · rw [same]
    obtain ⟨early, -, rest⟩ := straight_region counted
    exact ⟨trivial, rest⟩

/-- It does what all turns of the loop do. -/
theorem improves_fuse (lasts : ∀ cell, body.Lasts cell) (sight : Sight) :
    (body.fuse.sweep true 0 sight).Improves (body.rounds sight.cell.toNat sight.tick) := by
  by_cases zero : sight.cell = 0
  · have skipped : body.fuse.sweep true 0 sight = sight.tick := by
      rcases body.fuse_cases with ⟨product, -, -, same⟩ | ⟨-, same⟩
      · rw [same]
        exact if_pos zero
      · rw [same]
        exact if_pos zero
    have none : sight.cell.toNat = 0 := by rw [zero]; rfl
    rw [skipped, none]
    exact ⟨rfl, rfl, Nat.le_refl _, fun _ => id⟩
  · rcases body.fuse_cases with ⟨product, sole, opcode, same⟩ | ⟨-, same⟩
    · rw [same]
      exact improves_store counted lasts opcode sole zero
    · have entered : body.fuse.sweep true 0 sight = _ := (congrArg (·.sweep true 0 sight) same).trans
        (if_neg zero)
      rw [entered]
      exact improves_region counted lasts (decide body.Leaf) zero

end Counted

end Code

end TapeMachine
