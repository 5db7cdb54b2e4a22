/-
**Structured text.**

A text that is built by closing loops one after the other is a sequence of plain instructions, loops
and regions, nested in each other. `Code` is that structure; its outermost constructor is the last
item, so that writing at the end of a text is adding a constructor, and reading a text from left to
right is a recursion over `Code`.

* `Code.emit` is the text of a code that stands at some position, with every link in place. The idle
  ends of regions can be kept or left out;
* `layout` is the text of a draft: the codes around its open loops, and the code being written;
* `layout_cons_loop`: closing the innermost loop makes it an item of the code around it.
-/

import TapeMachine.Region

namespace TapeMachine

/-- A stretch of text, as nested loops and regions. -/
inductive Code where
  | empty
  | plain (before : Code) (instruction : Instruction)
  | loop (before body : Code)
  /-- A region, which is `fast` if it does without the stack. -/
  | region (before : Code) (fast : Bool) (body : Code)

/-- The instruction as it is before it is linked. -/
def Instruction.unlink (instruction : Instruction) : Instruction :=
  { instruction with link := 0 }

namespace Code

/-! ### The text of a code -/

/-- The instruction that begins a region. -/
def regionStart (fast : Bool) (link : Nat) : Instruction :=
  { opcode := if fast then .pushFast else .push, link := link }

/-- The instruction that ends a region, unless it is idle and idle ends are not kept. -/
def regionEnd (keep fast : Bool) (link : Nat) : List Instruction :=
  if keep || !fast then [{ opcode := if fast then .popFast else .pop, link := link }] else []

/-- The number of instructions. -/
def size (keep : Bool) : Code → Nat
  | empty => 0
  | plain before _ => before.size keep + 1
  | loop before body => before.size keep + body.size keep + 2
  | region before fast body =>
    before.size keep + body.size keep + 1 + (regionEnd keep fast 0).length

/-- The instructions, if the first of them stands at the position `base`. -/
def emit (keep : Bool) (base : Nat) : Code → List Instruction
  | empty => []
  | plain before instruction => before.emit keep base ++ [instruction]
  | loop before body =>
    let start := base + before.size keep
    before.emit keep base ++
      { opcode := .loopStart, link := start + 1 + body.size keep } ::
        (body.emit keep (start + 1) ++ [{ opcode := .loopEnd, link := start }])
  | region before fast body =>
    let start := base + before.size keep
    before.emit keep base ++
      regionStart fast (start + body.size keep + (regionEnd keep fast start).length) ::
        (body.emit keep (start + 1) ++ regionEnd keep fast start)

theorem length_regionEnd (keep fast : Bool) (link : Nat) :
    (regionEnd keep fast link).length = (regionEnd keep fast 0).length := by
  cases keep <;> cases fast <;> rfl

@[simp] theorem length_emit (keep : Bool) (base : Nat) (code : Code) :
    (code.emit keep base).length = code.size keep := by
  induction code generalizing base with
  | empty => rfl
  | plain before instruction ih => simp [emit, size, ih]
  | loop before body ihBefore ihBody =>
    simp only [emit, size, List.length_append, List.length_cons, List.length_nil, ihBefore, ihBody]
    omega
  | region before fast body ihBefore ihBody =>
    simp only [emit, size, List.length_append, List.length_cons, ihBefore, ihBody,
      length_regionEnd keep fast (base + before.size keep)]
    omega

theorem emit_eq_nil_iff {base : Nat} {code : Code} :
    code.emit true base = [] ↔ code = empty := by
  cases code <;> simp [emit]

/-- A code whose text is one instruction is that instruction. -/
theorem eq_plain_of_emit_eq_singleton {base : Nat} {code : Code} {instruction : Instruction}
    (single : code.emit true base = [instruction]) : code = empty.plain instruction := by
  have one := congrArg List.length single
  rw [length_emit] at one
  cases code with
  | empty => cases one
  | plain before last =>
    have none : before.size true = 0 := by simpa [size] using one
    have alone : before = empty := by
      cases before with
      | empty => rfl
      | plain before instruction => simp [size] at none
      | loop before body => simp [size] at none
      | region before fast body => simp [size] at none
    subst alone
    simp only [emit, List.nil_append, List.cons.injEq, and_true] at single
    rw [single]
  | loop before body =>
    simp only [size, List.length_cons, List.length_nil] at one
    omega
  | region before fast body =>
    simp only [size, regionEnd, Bool.true_or, if_true, List.length_cons, List.length_nil] at one
    omega

/-! ### Texts without links -/

/-- The instructions before they are linked. -/
def bare (code : Code) : List Instruction :=
  (code.emit true 0).map Instruction.unlink

/-- Where the text stands shows in its links only. -/
theorem map_unlink_emit (base : Nat) (code : Code) :
    (code.emit true base).map Instruction.unlink = code.bare := by
  suffices same : ∀ first second, (code.emit true first).map Instruction.unlink =
      (code.emit true second).map Instruction.unlink from same base 0
  induction code with
  | empty => exact fun _ _ => rfl
  | plain before instruction ih =>
    intro first second
    simp only [emit, List.map_append, ih first second]
  | loop before body ihBefore ihBody =>
    intro first second
    simp only [emit, List.map_append, List.map_cons, ihBefore first second,
      ihBody (first + before.size true + 1) (second + before.size true + 1)]
    rfl
  | region before fast body ihBefore ihBody =>
    intro first second
    simp only [emit, List.map_append, List.map_cons, ihBefore first second,
      ihBody (first + before.size true + 1) (second + before.size true + 1)]
    cases fast <;> rfl

theorem bare_plain {instruction : Instruction} (unlinked : instruction.link = 0) (before : Code) :
    (before.plain instruction).bare = before.bare ++ [instruction] := by
  have same : instruction.unlink = instruction := by
    rcases instruction with ⟨opcode, value, offset, link⟩
    obtain rfl : link = 0 := unlinked
    rfl
  simp [bare, emit, same]

theorem bare_region (before : Code) (fast : Bool) (body : Code) :
    (before.region fast body).bare =
      before.bare ++ { opcode := if fast then .pushFast else .push } ::
        (body.bare ++ [{ opcode := if fast then .popFast else .pop }]) := by
  have inside := map_unlink_emit (0 + before.size true + 1) body
  rw [bare, emit, List.map_append, List.map_cons, List.map_append, inside]
  cases fast <;> rfl

@[simp] theorem length_bare (code : Code) : code.bare.length = code.size true := by
  simp [bare]

/-! ### Concatenation -/

/-- One code behind another. -/
def append (first : Code) : Code → Code
  | empty => first
  | plain before instruction => (first.append before).plain instruction
  | loop before body => (first.append before).loop body
  | region before fast body => (first.append before).region fast body

instance : Append Code := ⟨append⟩

@[simp] theorem append_empty (code : Code) : code ++ empty = code := rfl

@[simp] theorem append_plain (first before : Code) (instruction : Instruction) :
    first ++ before.plain instruction = (first ++ before).plain instruction := rfl

@[simp] theorem append_loop (first before body : Code) :
    first ++ before.loop body = (first ++ before).loop body := rfl

@[simp] theorem append_region (first before : Code) (fast : Bool) (body : Code) :
    first ++ before.region fast body = (first ++ before).region fast body := rfl

end Code

/-! ### The text of a draft -/

/-- The text before the innermost open loop's body, from the codes around the open loops, innermost
first. -/
def preamble : List Code → List Instruction
  | [] => []
  | outer :: rest =>
    preamble rest ++ outer.emit true (preamble rest).length ++ [{ opcode := .loopStart }]

/-- The text of a draft: the codes around its open loops, innermost first, and the code that is being
written. -/
def layout (outers : List Code) (code : Code) : List Instruction :=
  preamble outers ++ code.emit true (preamble outers).length

/-- The positions where the open loops begin, innermost first. -/
def starts : List Code → List Nat
  | [] => []
  | outer :: rest => (layout rest outer).length :: starts rest

theorem preamble_cons (outer : Code) (rest : List Code) :
    preamble (outer :: rest) = layout rest outer ++ [{ opcode := .loopStart }] := rfl

theorem layout_cons (outer : Code) (rest : List Code) (code : Code) :
    layout (outer :: rest) code =
      layout rest outer ++
        { opcode := .loopStart } :: code.emit true ((layout rest outer).length + 1) := by
  simp [layout, preamble_cons, Nat.add_assoc]

theorem length_layout (outers : List Code) (code : Code) :
    (layout outers code).length = (preamble outers).length + code.size true := by
  simp [layout]

@[simp] theorem layout_empty (outers : List Code) : layout outers .empty = preamble outers := by
  simp [layout, Code.emit]

theorem layout_plain (outers : List Code) (before : Code) (instruction : Instruction) :
    layout outers (before.plain instruction) = layout outers before ++ [instruction] := by
  simp [layout, Code.emit]

/-- The text of a loop behind a code is that code's, the linked ends, and the body's in between. -/
theorem layout_loop (outers : List Code) (before body : Code) :
    layout outers (before.loop body) =
      layout outers before ++
        { opcode := .loopStart, link := (layout outers before).length + 1 + body.size true } ::
          (body.emit true ((layout outers before).length + 1) ++
            [{ opcode := .loopEnd, link := (layout outers before).length }]) := by
  simp only [layout, Code.emit, List.append_assoc, List.length_append, Code.length_emit]

theorem Code.size_append (keep : Bool) (first second : Code) :
    (first ++ second).size keep = first.size keep + second.size keep := by
  induction second with
  | empty => rfl
  | plain before instruction ih => simp only [append_plain, size, ih, Nat.add_assoc]
  | loop before body ihBefore _ => simp only [append_loop, size, ihBefore, Nat.add_assoc]
  | region before fast body ihBefore _ => simp only [append_region, size, ihBefore, Nat.add_assoc]

theorem Code.emit_append (keep : Bool) (base : Nat) (first second : Code) :
    (first ++ second).emit keep base =
      first.emit keep base ++ second.emit keep (base + first.size keep) := by
  induction second with
  | empty => exact (List.append_nil _).symm
  | plain before instruction ih => simp [emit, ih]
  | loop before body ihBefore _ => simp [emit, ihBefore, size_append, Nat.add_assoc]
  | region before fast body ihBefore _ => simp [emit, ihBefore, size_append, Nat.add_assoc]

theorem layout_append (outers : List Code) (first second : Code) :
    layout outers (first ++ second) =
      layout outers first ++ second.emit true (layout outers first).length := by
  rw [layout, layout, Code.emit_append, List.append_assoc, List.length_append, Code.length_emit]

theorem layout_region (outers : List Code) (before : Code) (fast : Bool) (body : Code) :
    layout outers (before.region fast body) =
      layout outers before ++ (Code.empty.region fast body).emit true (layout outers before).length := by
  simp [layout, Code.emit, Code.size]

end TapeMachine
