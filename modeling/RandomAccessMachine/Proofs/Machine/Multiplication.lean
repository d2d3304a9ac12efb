import Mathlib
import RandomAccessMachine.Proofs.Assembly.LineGrammar
import RandomAccessMachine.Proofs.Machine.Meaning

/-!
# Multiplication by repeated addition

A program for the machine that multiplies its first two inputs: it counts the
second one down to 0 and adds the first one to a sum each time. Counting and
adding wrap around, so the sum is the product of the two words also if the
second one is negative.

## Implementation notes

The loop begins on line 6. Whatever the registers hold there, the run halts
with the sum and the product of the first input and the counter
(`exists_returns_of_loop`), by induction on a number that the counter stands for.
-/

namespace RandomAccessMachine

namespace Program

/-- The lines of the text of the multiplication program. -/
def multiplicationLines : List String :=
  ["# Multiplies two non-negative inputs by repeated addition",
    "READ 2      # r1 <- i2, counts down",
    "STORE 1",
    "LOAD =0     # r2 <- 0, running product",
    "STORE 2",
    "LOAD 1      # loop",
    "JZERO 15",
    "READ 1",
    "ADD 2",
    "STORE 2",
    "LOAD 1",
    "SUB =1",
    "STORE 1",
    "JUMP 6",
    "LOAD 2      # r0 <- product"]

/-- The text of the multiplication program, with a line feed behind each line. -/
def multiplicationText : String := String.join (multiplicationLines.map (· ++ "\n"))

/-- The multiplication program. -/
def multiplication : Program := .ofList
  [⟨.pass, .absent, 1⟩, ⟨.read, .direct 2, 2⟩, ⟨.store, .direct 1, 3⟩, ⟨.load, .constant 0, 4⟩,
    ⟨.store, .direct 2, 5⟩, ⟨.load, .direct 1, 6⟩, ⟨.jzero, .direct 15, 7⟩, ⟨.read, .direct 1, 8⟩,
    ⟨.add, .direct 2, 9⟩, ⟨.store, .direct 2, 10⟩, ⟨.load, .direct 1, 11⟩,
    ⟨.sub, .constant 1, 12⟩, ⟨.store, .direct 1, 13⟩, ⟨.jump, .direct 6, 14⟩,
    ⟨.load, .direct 2, 15⟩]

theorem textLines_multiplicationText :
    textLines multiplicationText.toList = multiplicationLines.map String.toList := by
  have hlines : (multiplicationLines.map String.toList).all
      (fun line => !line.contains '\n') = true := by cbv
  have htext : multiplicationText.toList =
      (multiplicationLines.map String.toList).flatMap (· ++ ['\n']) := by
    rw [multiplicationText, String.toList_join, List.flatMap_map, List.flatMap_map]
    simp
  rw [htext]
  apply textLines_flatMap
  simpa using List.all_eq_true.mp hlines

/-- The text is read as the program, line by line. -/
theorem ofSource_multiplicationText :
    ofSource (.ofString multiplicationText) = .ok multiplication := by
  rw [ofSource_ofString_eq_ok_iff, textLines_multiplicationText]
  refine ⟨rfl, fun k line hk => ?_⟩
  obtain ⟨hlt, rfl⟩ := List.getElem?_eq_some_iff.mp hk
  change k < 15 at hlt
  interval_cases k <;> exact ⟨_, by cbv, rfl⟩

end Program

namespace Registers

/-- Set up the loop: the counter is in register 1 and the sum in register 2 (lines 2 to 5). -/
def setUp (r : Registers) (b : Word) : Registers :=
  let counter := r.setAccumulator b
  let zero := (counter.write 1 counter.accumulator).setAccumulator 0
  zero.write 2 zero.accumulator

/-- Add a value to the sum (lines 8 to 10). -/
def addToSum (r : Registers) (a : Word) : Registers :=
  let value := r.setAccumulator a
  let sum := value.setAccumulator (value.accumulator + value.read 2)
  sum.write 2 sum.accumulator

/-- Take 1 off the counter (lines 11 to 13). -/
def countDown (r : Registers) : Registers :=
  let counter := r.setAccumulator (r.read 1)
  let less := counter.setAccumulator (counter.accumulator - 1)
  less.write 1 less.accumulator

variable (r : Registers) (a b : Word)

@[simp] theorem read_setAccumulator (k : Word) :
    (r.setAccumulator a).read k = if k = 0 then a else r.read k :=
  read_write r 0 a k

@[simp] theorem accumulator_setAccumulator : (r.setAccumulator a).accumulator = a :=
  read_setAccumulator r a 0

@[simp] theorem read_one_setUp : (r.setUp b).read 1 = b := by simp [setUp]

@[simp] theorem read_two_setUp : (r.setUp b).read 2 = 0 := by simp [setUp]

@[simp] theorem read_one_addToSum : (r.addToSum a).read 1 = r.read 1 := by simp [addToSum]

@[simp] theorem read_two_addToSum : (r.addToSum a).read 2 = a + r.read 2 := by simp [addToSum]

@[simp] theorem read_one_countDown : r.countDown.read 1 = r.read 1 - 1 := by simp [countDown]

@[simp] theorem read_two_countDown : r.countDown.read 2 = r.read 2 := by simp [countDown]

end Registers

namespace Machine

variable {a b value : Word} {values : List Word} {r : Registers} {line : Nat} {next final : Machine}

/-- The machine at a line of the multiplication program. -/
def multiplying (values : List Word) (line : Nat) (r : Registers) : Machine :=
  ⟨line, r, .multiplication, ⟨values⟩⟩

/-- A step from a line in front of a run. -/
theorem Returns.of_line (hs : (multiplying values (line + 1) r).step = .ok next)
    (h : next.Returns value final) : (multiplying values (line + 1) r).Returns value final := by
  refine .of_step ?_ hs h
  simp [isHalted, multiplying]

/-- The first lines lead to the loop. -/
theorem returns_setUp (h : (multiplying (a :: b :: values) 6 (r.setUp b)).Returns value final) :
    (multiplying (a :: b :: values) 1 r).Returns value final := by
  iterate 4 refine .of_line rfl ?_
  exact .of_line rfl h

/-- The first input is added to the sum before counting down. -/
theorem returns_addToSum (h : (multiplying (a :: values) 11 (r.addToSum a)).Returns value final) :
    (multiplying (a :: values) 8 r).Returns value final :=
  .of_line rfl (.of_line rfl (.of_line rfl h))

/-- Behind the counter the loop begins again. -/
theorem returns_countDown (h : (multiplying values 6 r.countDown).Returns value final) :
    (multiplying values 11 r).Returns value final :=
  .of_line rfl (.of_line rfl (.of_line rfl (.of_line rfl h)))

/-- The jump out of the loop is taken if the accumulator is 0. -/
theorem step_multiplying_jzero : (multiplying values 7 r).step =
    .ok (multiplying values (if r.accumulator = 0 then 15 else 8) r) := by
  have hstep : (multiplying values 7 r).step =
      .ok ((multiplying values 7 r).branch (r.accumulator == 0) 15) := rfl
  rw [hstep]
  by_cases h : r.accumulator = 0
  · simp [h, branch, multiplying]
  · simp [h, branch, advance, multiplying]

/-- When the counter is 0 the machine leaves the loop and halts with the sum, to which nothing is
to be added. -/
theorem exists_returns_of_counter_eq_zero (h : r.read 1 = 0) (a : Word) (values : List Word) :
    ∃ final, (multiplying values 6 r).Returns (r.read 2 + a * r.read 1) final := by
  let left := r.setAccumulator (r.read 1)
  let behind := multiplying values 16 (left.setAccumulator (left.read 2))
  have hjump : (multiplying values 7 left).step = .ok (multiplying values 15 left) := by
    rw [step_multiplying_jzero, Registers.accumulator_setAccumulator, if_pos h]
  have hsum : behind.accumulator = r.read 2 := by
    simp [behind, left, accumulator, multiplying]
  have hhalt : behind.Returns (r.read 2) behind.halt :=
    hsum ▸ returns_of_instruction?_eq_none rfl
  rw [h, Int64.mul_zero, Int64.add_zero]
  exact ⟨_, .of_line rfl (.of_line hjump (.of_line rfl hhalt))⟩

/-- Otherwise a turn of the loop adds the first input to the sum and counts down. -/
theorem returns_of_counter_ne_zero (h : r.read 1 ≠ 0)
    (hnext : (multiplying (a :: values) 6
      ((r.setAccumulator (r.read 1)).addToSum a).countDown).Returns value final) :
    (multiplying (a :: values) 6 r).Returns value final := by
  have hjump : (multiplying (a :: values) 7 (r.setAccumulator (r.read 1))).step =
      .ok (multiplying (a :: values) 8 (r.setAccumulator (r.read 1))) := by
    rw [step_multiplying_jzero, Registers.accumulator_setAccumulator, if_neg h]
  exact .of_line rfl (.of_line hjump (returns_addToSum (returns_countDown hnext)))

/-- From the beginning of the loop the machine halts with the sum and what is still to be added to
it. -/
theorem exists_returns_of_loop (a : Word) (values : List Word) (k : Nat)
    (h : r.read 1 = Int64.ofNat k) :
    ∃ final, (multiplying (a :: values) 6 r).Returns (r.read 2 + a * r.read 1) final := by
  induction k generalizing r with
  | zero => exact exists_returns_of_counter_eq_zero h a (a :: values)
  | succ k ih =>
      by_cases hzero : r.read 1 = 0
      · -- the number may be larger than every word, so the counter can be 0 before it
        exact exists_returns_of_counter_eq_zero hzero a (a :: values)
      · let after := ((r.setAccumulator (r.read 1)).addToSum a).countDown
        have hcounter : after.read 1 = r.read 1 - 1 := by simp [after]
        have hsum : after.read 2 = a + r.read 2 := by simp [after]
        have hk : after.read 1 = Int64.ofNat k := by
          rw [hcounter, h, Int64.ofNat_add]
          exact Int64.add_sub_cancel _ _
        have htotal : after.read 2 + a * after.read 1 = r.read 2 + a * r.read 1 := by
          rw [hcounter, hsum]
          grind
        obtain ⟨final, hreturns⟩ := ih hk
        rw [htotal] at hreturns
        exact ⟨final, returns_of_counter_ne_zero hzero hreturns⟩

/-- The text of the multiplication program is read as a program. On any two inputs, whatever other
inputs follow them, its run does not fail, and it halts with the only word that is congruent to
their product. -/
theorem multiplication_halts_with_product (a b : Word) (rest : List Word) :
    ∃ p, Program.ofSource (.ofString Program.multiplicationText) = .ok p ∧
      ∃ product final, (start p ⟨a :: b :: rest⟩).Returns product final ∧
        product.toInt ≡ a.toInt * b.toInt [ZMOD 2 ^ 64] ∧
        (∀ v : Word, v.toInt ≡ a.toInt * b.toInt [ZMOD 2 ^ 64] → v = product) ∧
        ∀ e other, ¬ (start p ⟨a :: b :: rest⟩).Fails e other := by
  have hcounter : (Registers.initial.setUp b).read 1 = Int64.ofNat b.toBitVec.toNat := by
    rw [Registers.read_one_setUp, Int64.ofNat_bitVecToNat, Int64.ofBitVec_toBitVec]
  obtain ⟨final, hloop⟩ := exists_returns_of_loop a (b :: rest) _ hcounter
  rw [Registers.read_one_setUp, Registers.read_two_setUp, Int64.zero_add] at hloop
  have hreturns : (start .multiplication ⟨a :: b :: rest⟩).Returns (a * b) final :=
    returns_setUp hloop
  have hproduct := Word.toInt_mul_modEq a b
  exact ⟨_, Program.ofSource_multiplicationText, _, final, hreturns, hproduct,
    fun v hv => Word.eq_of_modEq (hv.trans hproduct.symm), fun _ _ => hreturns.not_fails⟩

end Machine

end RandomAccessMachine
