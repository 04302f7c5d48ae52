import TemplateExpr.Proofs.Bytecode.Fields
import TemplateExpr.Proofs.Bytecode.Listing

/-!
# Commands

A command is an instruction that says what its operand stands for: the constant, name or function itself in place of its
number, and the place that a jump leads to in place of the distance (`Bytecode.command?`). Everything that reads code
reads the command:

* (machine) An instruction is executed as its command says (`Bytecode.execute_of_command?`), which does not look at the
  pool any more.
* (validator) The code goes on where the command says (`Bytecode.successors_of_command?`).
* (listing) The text of an operand shows what it stands for, beside its number (`Bytecode.operandText_of_command?`).
-/

namespace TemplateExpr

/-- What an operand stands for. -/
inductive Meaning where
  | none
  | function (f : RuntimeFunction)
  | constant (v : Value)
  /-- The place that a jump leads to. -/
  | target (offset : Nat)
  | call (name : String) (count : Nat)
  | capacity (n : UInt32)

structure Command where
  opcode : Opcode
  meaning : Meaning

/-- The number in an operand that stands for something else: a position in the pool or a distance. -/
def Instruction.number (i : Instruction) : Int :=
  match i.opcode.operandForm, i.operand with
  | .index, (n : UInt16) => n.toNat
  | .distance, (d : Int16) => d.toInt
  | _, _ => 0

namespace Command

/-- Number of bytes. -/
def size (c : Command) : Nat := c.opcode.operandSize + 1

/-- Executes a command whose instruction ends at the offset `stop`. -/
def execute (globals : OrderedMap Value) (limit stop : Nat) (s : Stack) (c : Command) : Except Fault Action :=
  let next (r : Except Fault Stack) : Except Fault Action := r.map fun s => .next s stop
  match c with
  | ⟨.constInt, .constant (.int n)⟩ => next (s.checkedPush limit (.int n))
  | ⟨.constFloat, .constant (.float x)⟩ => next (s.checkedPush limit (.float x))
  | ⟨.constant, .constant v⟩ => next (s.checkedPush limit (.ref v))
  | ⟨.getGlobal, .constant (.string name)⟩ =>
    next (match globals.get? name with
      | some v => s.checkedPush limit (.ref v)
      | none => .error (.undefinedVariable name))
  | ⟨.jump, .target t⟩ => .ok (.next s t)
  | ⟨.jumpIfFalse, .target t⟩ => do
    let (b, s) ← s.popBool
    .ok (.next s (if b then stop else t))
  | ⟨.jumpIfTrue, .target t⟩ => do
    let (b, s) ← s.popBool
    .ok (.next s (if b then t else stop))
  | ⟨.invoke, .function f⟩ =>
    next (do
      let (arguments, s) ← s.popValues f.arity
      let result ← f.apply arguments
      s.checkedPush limit (f.resultSlot result))
  | ⟨.callNative, .call name count⟩ => do
    let (arguments, s) ← s.popValues count
    .ok (.call name arguments s stop)
  | ⟨.newList, .capacity _⟩ => next (s.checkedPush limit (.ref (.list #[])))
  | ⟨.newMap, .capacity _⟩ => next (s.checkedPush limit (.ref (.map .empty)))
  | ⟨o, .none⟩ =>
    match Instruction.ofBytes? o [] with
    | some i => i.execute ⟨.empty, globals, limit⟩ stop s
    | none => .error (.operand .truncated)
  | _ => .error (.operand .truncated)

/-- Places that the code may go on at. -/
def successors (stop : Nat) (c : Command) : List Nat :=
  match c with
  | ⟨.halt, _⟩ => []
  | ⟨.jump, .target t⟩ => [t]
  | ⟨_, .target t⟩ => [stop, t]
  | _ => [stop]

/-- The operand in a listing, given the number that it has in the code. -/
def operandText (c : Command) (number : Int) : String :=
  match c.meaning with
  | .none => ""
  | .function f => " " ++ f.name
  | .constant v => " " ++ toString number ++ " (" ++ Bytecode.constantText v ++ ")"
  | .target t => " " ++ toString number ++ " (-> " ++ Text.decimal 4 t ++ ")"
  | .call name count => " " ++ name ++ "/" ++ toString count
  | .capacity n => " " ++ toString n.toNat

end Command

namespace Bytecode

/-- What the operand of an instruction stands for that ends at the offset `stop`, if it stands for anything. -/
def meaning? (b : Bytecode) (stop : Nat) (i : Instruction) : Option Meaning :=
  match i.opcode.operandForm, i.operand with
  | .none, _ => some .none
  | .function, (f : UInt8) => (RuntimeFunction.ofCode? f).map .function
  | .index, (n : UInt16) => b.constants[n.toNat]?.map .constant
  | .distance, (d : Int16) => ((stop : Int) + d.toInt).toNat?.map .target
  | .call, ((n, count) : UInt16 × UInt8) =>
    match b.constants[n.toNat]? with
    | some (.string name) => some (.call name count.toNat)
    | _ => none
  | .capacity, (n : UInt32) => some (.capacity n)

def command? (b : Bytecode) (p : Placed) : Option Command :=
  (b.meaning? p.stop p.instruction).map fun m => ⟨p.instruction.opcode, m⟩

variable {b : Bytecode} {p : Placed} {c : Command}

theorem opcode_of_command? (h : b.command? p = some c) : c.opcode = p.instruction.opcode := by
  obtain ⟨m, -, rfl⟩ := Option.map_eq_some_iff.1 h
  rfl

theorem size_of_command? (h : b.command? p = some c) : c.size = p.instruction.size := by
  rw [Command.size, opcode_of_command? h]
  rfl

/-! ### Inversion, by the form of the operand -/

private theorem toNat?_eq_some {n : Int} {t : Nat} (h : n.toNat? = some t) : n = t := by
  cases n with
  | ofNat m => cases h; rfl
  | negSucc m => cases h

private theorem target_of_meaning? {stop : Nat} {d : Int16} {m : Meaning}
    (h : ((stop : Int) + d.toInt).toNat?.map Meaning.target = some m) :
    ∃ t : Nat, m = .target t ∧ (stop : Int) + d.toInt = t := by
  obtain ⟨t, ht, rfl⟩ := Option.map_eq_some_iff.1 h
  exact ⟨t, rfl, toNat?_eq_some ht⟩

private theorem call_of_meaning? {n : UInt16} {count : UInt8} {m : Meaning}
    (h : (match b.constants[n.toNat]? with
      | some (.string name) => some (Meaning.call name count.toNat)
      | _ => none) = some m) :
    ∃ name, m = .call name count.toNat ∧ b.constants[n.toNat]? = some (.string name) := by
  split at h
  · rename_i name hname
    cases h
    exact ⟨name, rfl, hname⟩
  · cases h

/-! ### What reads the code reads the commands -/

/-- The validator follows the code as the commands say. -/
theorem successors_of_command? (h : b.command? p = some c) : successors p = c.successors p.stop := by
  obtain ⟨m, hm, rfl⟩ := Option.map_eq_some_iff.1 h
  obtain ⟨offset, ⟨o, x⟩⟩ := p
  cases o
  case jump | jumpIfFalse | jumpIfTrue =>
    obtain ⟨t, rfl, ht⟩ := target_of_meaning? hm
    simp only [successors, jumpDistance?, Command.successors, ht, Int.toNat_natCast]
  case constInt | constFloat | constant | getGlobal | invoke =>
    obtain ⟨v, -, rfl⟩ := Option.map_eq_some_iff.1 hm
    rfl
  case callNative =>
    obtain ⟨name, rfl, -⟩ := call_of_meaning? hm
    rfl
  all_goals cases hm; rfl

/-- The listing shows what the command says. -/
theorem operandText_of_command? (h : b.command? p = some c) :
    b.operandText p.stop p.instruction = c.operandText p.instruction.number := by
  obtain ⟨m, hm, rfl⟩ := Option.map_eq_some_iff.1 h
  obtain ⟨offset, ⟨o, x⟩⟩ := p
  cases o
  case jump | jumpIfFalse | jumpIfTrue =>
    obtain ⟨t, rfl, ht⟩ := target_of_meaning? hm
    change _ ++ Text.decimal 4 ((Placed.stop _ : Int) + Int16.toInt x) ++ ")" = _
    rw [ht]
    rfl
  case constInt | constFloat | constant | getGlobal =>
    obtain ⟨v, hv, rfl⟩ := Option.map_eq_some_iff.1 hm
    change _ ++ (match b.constants[UInt16.toNat x]? with
      | some v => constantText v
      | none => "?") ++ ")" = _
    rw [hv]
    rfl
  case invoke =>
    obtain ⟨f, hf, rfl⟩ := Option.map_eq_some_iff.1 hm
    simp only [operandText, Opcode.operandForm, hf, Command.operandText]
  case callNative =>
    obtain ⟨index, count⟩ := x
    obtain ⟨name, rfl, hname⟩ := call_of_meaning? hm
    change " " ++ (match b.constants[index.toNat]? with
      | some (.string s) => s
      | _ => "?") ++ _ ++ _ = _
    rw [hname]
    rfl
  all_goals cases hm; rfl

theorem jumpTarget_eq {stop t : Nat} {d : Int16} (h : (stop : Int) + d.toInt = t) : jumpTarget stop d = t := by
  rw [jumpTarget, h, if_neg (by omega)]
  rfl

/-- The machine executes what the command says, once the validator has nothing against the operand. -/
theorem execute_of_command? (h : b.command? p = some c) (hoperand : operandDefect? b.constants p.instruction = none)
    (globals : OrderedMap Value) (limit : Nat) (s : Stack) :
    p.instruction.execute ⟨b, globals, limit⟩ p.stop s = c.execute globals limit p.stop s := by
  obtain ⟨m, hm, rfl⟩ := Option.map_eq_some_iff.1 h
  obtain ⟨offset, ⟨o, x⟩⟩ := p
  -- a constant is of the kind that the instruction needs
  have hconstant : ∀ {need : ConstantNeed} {n : Nat} {v : Value}, o.constantNeed? = some need →
      constantIndex? ⟨o, x⟩ = some n → b.constants[n]? = some v → need.accepts v = true := by
    intro need n v hneed hn hv
    obtain ⟨v', hv', haccepts⟩ := constant_of_operandDefect? hneed hn hoperand
    rw [hv] at hv'
    cases hv'
    exact haccepts
  cases o
  case jump | jumpIfFalse | jumpIfTrue =>
    obtain ⟨t, rfl, ht⟩ := target_of_meaning? hm
    simp only [Instruction.execute, jumpTarget_eq ht, Command.execute]
  case constInt =>
    obtain ⟨v, hv, rfl⟩ := Option.map_eq_some_iff.1 hm
    obtain ⟨n, rfl, hat⟩ := intAt_of_accepts hv (hconstant rfl rfl hv)
    change Except.map _ (b.intAt x >>= fun n => s.checkedPush limit (.int n)) = _
    rw [hat]
    rfl
  case constFloat =>
    obtain ⟨v, hv, rfl⟩ := Option.map_eq_some_iff.1 hm
    obtain ⟨y, rfl, hat⟩ := floatAt_of_accepts hv (hconstant rfl rfl hv)
    change Except.map _ (b.floatAt x >>= fun y => s.checkedPush limit (.float y)) = _
    rw [hat]
    rfl
  case constant =>
    obtain ⟨v, hv, rfl⟩ := Option.map_eq_some_iff.1 hm
    have hat : b.constantAt x = .ok v := by simp only [constantAt, hv]
    change Except.map _ (b.constantAt x >>= fun v => s.checkedPush limit (.ref v)) = _
    rw [hat]
    rfl
  case getGlobal =>
    obtain ⟨v, hv, rfl⟩ := Option.map_eq_some_iff.1 hm
    obtain ⟨name, rfl, hat⟩ := nameAt_of_accepts hv (hconstant rfl rfl hv)
    change Except.map _ (b.nameAt x >>= fun name => match globals.get? name with
      | some v => s.checkedPush limit (.ref v)
      | none => .error (.undefinedVariable name)) = _
    rw [hat]
    rfl
  case callNative =>
    obtain ⟨index, count⟩ := x
    obtain ⟨name, rfl, hname⟩ := call_of_meaning? hm
    obtain ⟨_, heq, hat⟩ := nameAt_of_accepts hname rfl
    cases heq
    change (b.nameAt index >>= fun name => s.popValues count.toNat >>= fun r => .ok (Action.call name r.1 r.2 _)) = _
    rw [hat]
    rfl
  case invoke =>
    obtain ⟨f, hf, rfl⟩ := Option.map_eq_some_iff.1 hm
    change Except.map _ (s.invoke limit x) = _
    simp only [Stack.invoke, hf]
    rfl
  all_goals cases hm; rfl

/-- An instruction stands at its place for all that read it there, and all take it for the same command. -/
structure Shows (b : Bytecode) (p : Placed) (c : Command) : Prop where
  command : b.command? p = some c
  fetch : b.fetch p.offset = .instruction p.instruction
  machine : b.machineRead p.offset = .ok (p.instruction, p.stop)
  listing : b.listingRead p.offset = (.ok p.instruction, p.stop)
  operand : operandDefect? b.constants p.instruction = none
  successors : successors p = c.successors p.stop
  execute : ∀ globals limit s,
    p.instruction.execute ⟨b, globals, limit⟩ p.stop s = c.execute globals limit p.stop s
  line : b.lineOf p =
    Text.decimal 4 p.offset ++ "  " ++ c.opcode.mnemonic ++ c.operandText p.instruction.number ++ "\n"

theorem lookUp_of_operandDefect? {i : Instruction} (h : operandDefect? b.constants i = none) : b.lookUp i = .ok () := by
  obtain ⟨o, x⟩ := i
  cases o
  case callNative =>
    obtain ⟨v, hv, haccepts⟩ := constant_of_operandDefect? rfl rfl h
    obtain ⟨name, -, hname⟩ := nameAt_of_accepts hv haccepts
    change (b.nameAt x.1).map _ = _
    rw [hname]
    rfl
  all_goals rfl

theorem shows_of_command? (hcommand : b.command? p = some c) (hfetch : b.fetch p.offset = .instruction p.instruction)
    (hoperand : operandDefect? b.constants p.instruction = none) : b.Shows p c where
  command := hcommand
  fetch := hfetch
  machine := machineRead_of_fetch hfetch (lookUp_of_operandDefect? hoperand)
  listing := listingRead_of_fetch hfetch
  operand := hoperand
  successors := successors_of_command? hcommand
  execute := execute_of_command? hcommand hoperand
  line := by rw [lineOf, operandText_of_command? hcommand, opcode_of_command? hcommand]

end Bytecode

end TemplateExpr
