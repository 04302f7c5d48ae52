import TemplateExpr.Bytecode.Validation
import TemplateExpr.Machine.Execute
import TemplateExpr.Proofs.Value.Fault

/-!
# What an instruction does to the stack

The table of stack effects says how many slots an instruction takes off and how many it leaves. Here the machine is
held against that table:

* (success) an instruction that goes on has replaced its topmost `pops` slots by `pushes` others and has not touched
  the slots below (`Replaces`);
* (failure) it misses slots only if there are fewer than `pops`, and it complains about its operand only if the
  validator does so too.

The operations of the machine take slots off one by one, so each `Respects.pop…` adds one slot to the effect of
what comes after it.
-/

namespace TemplateExpr

/-- The faults of malformed bytecode that validation is to rule out. -/
def Fault.preventable : Fault → Bool
  | .unknownOpcode | .stackUnderflow | .stackImbalance _ => true
  | .operand .truncated | .operand (.constantOutOfBounds _) | .operand (.wrongConstant _ _)
  | .operand (.unknownFunction _) => true
  | _ => false

namespace Stack

/-- Every stack is empty or has a topmost slot. -/
@[elab_as_elim]
theorem push_cases {P : Stack → Prop} (empty : P .empty) (push : ∀ (t : Stack) (x : Slot), P (t.push x)) (s : Stack) :
    P s := by
  rcases s with ⟨_ | ⟨x, slots⟩, height, h⟩
  · subst h; exact empty
  · subst h; exact push ⟨slots, slots.length, rfl⟩ x

/-- A slot is pushed, or there is no room for it. -/
theorem checkedPush_cases (s : Stack) (limit : Nat) (x : Slot) :
    s.checkedPush limit x = .ok (s.push x) ∨ s.checkedPush limit x = .error (.stackOverflow limit) := by
  unfold checkedPush
  split
  · exact .inl rfl
  · exact .inr rfl

/-- `t` is `s` with its topmost `pops` slots replaced by `pushes` others. -/
def Replaces (s : Stack) (e : StackEffect) (t : Stack) : Prop :=
  e.pops ≤ s.height ∧ ∃ top, top.length = e.pushes ∧ t.slots = top ++ s.slots.drop e.pops

theorem Replaces.height {s t : Stack} {e : StackEffect} (h : s.Replaces e t) :
    t.height = s.height - e.pops + e.pushes := by
  obtain ⟨-, top, htop, ht⟩ := h
  rw [t.height_eq, s.height_eq, ht, List.length_append, List.length_drop, htop]
  omega

theorem Replaces.push {s t : Stack} {p q : Nat} (x : Slot) (h : s.Replaces ⟨p, q⟩ t) :
    (s.push x).Replaces ⟨p + 1, q⟩ t := by
  obtain ⟨hp, top, htop, ht⟩ := h
  refine ⟨?_, top, htop, ?_⟩
  · simp only [height_push]
    exact Nat.succ_le_succ hp
  · rw [ht, slots_push, List.drop_succ_cons]

/-- A result of an operation with a given effect: slots are replaced as the effect says, and too few slots are the
only cause of a preventable fault. -/
def Respects (s : Stack) (e : StackEffect) : Except Fault Stack → Prop
  | .ok t => s.Replaces e t
  | .error f => f.preventable → f = .stackUnderflow ∧ s.height < e.pops

theorem respects_checkedPush (s : Stack) (limit : Nat) (x : Slot) :
    s.Respects ⟨0, 1⟩ (s.checkedPush limit x) := by
  obtain h | h := s.checkedPush_cases limit x
  · rw [h]
    exact ⟨Nat.zero_le _, [x], rfl, rfl⟩
  · rw [h]
    exact nofun

/-- Taking one slot off adds one to the slots that are needed. -/
theorem Respects.pop {s : Stack} {p q : Nat} {k : Slot × Stack → Except Fault Stack}
    (h : ∀ x t, Respects t ⟨p, q⟩ (k (x, t))) : s.Respects ⟨p + 1, q⟩ (s.pop >>= k) := by
  cases s using push_cases with
  | empty =>
    intro _
    exact ⟨rfl, Nat.succ_pos p⟩
  | push t x =>
    have hk : (t.push x).pop >>= k = k (x, t) := rfl
    have ht := h x t
    rw [hk]
    revert ht
    cases k (x, t) with
    | ok r => exact fun hr => hr.push x
    | error f =>
      intro hf hp
      obtain ⟨rfl, hlt⟩ := hf hp
      exact ⟨rfl, Nat.succ_lt_succ hlt⟩

/-- A slot of the wrong kind is not a preventable fault. -/
theorem respects_wrongSlot (s : Stack) (e : StackEffect) (role : SlotRole) (kind : Kind) :
    s.Respects e (.error (.operand (.wrongSlot role kind))) := by
  intro h
  cases h

theorem respects_type (s : Stack) (e : StackEffect) (cause : TypeFault) : s.Respects e (.error (.type cause)) := by
  intro h
  cases h

theorem Respects.popInt {s : Stack} {p q : Nat} {k : Int64 × Stack → Except Fault Stack}
    (h : ∀ n t, Respects t ⟨p, q⟩ (k (n, t))) : s.Respects ⟨p + 1, q⟩ (s.popInt >>= k) := by
  unfold Stack.popInt
  rw [bind_assoc]
  refine Respects.pop fun x t => ?_
  cases x with
  | int n => exact h n t
  | _ => exact respects_wrongSlot t _ _ _

theorem Respects.popFloat {s : Stack} {p q : Nat} {k : Float × Stack → Except Fault Stack}
    (h : ∀ x t, Respects t ⟨p, q⟩ (k (x, t))) : s.Respects ⟨p + 1, q⟩ (s.popFloat >>= k) := by
  unfold Stack.popFloat
  rw [bind_assoc]
  refine Respects.pop fun x t => ?_
  cases x with
  | float x => exact h x t
  | _ => exact respects_wrongSlot t _ _ _

theorem Respects.popBool {s : Stack} {p q : Nat} {k : Bool × Stack → Except Fault Stack}
    (h : ∀ b t, Respects t ⟨p, q⟩ (k (b, t))) : s.Respects ⟨p + 1, q⟩ (s.popBool >>= k) := by
  unfold Stack.popBool
  rw [bind_assoc]
  refine Respects.pop fun x t => ?_
  cases x with
  | bool b => exact h b t
  | _ => exact respects_wrongSlot t _ _ _

theorem Respects.popRef {s : Stack} {p q : Nat} {k : Value × Stack → Except Fault Stack}
    (h : ∀ v t, Respects t ⟨p, q⟩ (k (v, t))) : s.Respects ⟨p + 1, q⟩ (s.popRef >>= k) := by
  unfold Stack.popRef
  rw [bind_assoc]
  refine Respects.pop fun x t => ?_
  cases x with
  | ref v => exact h v t
  | _ => exact respects_wrongSlot t _ _ _

theorem Respects.popValue {s : Stack} {p q : Nat} {k : Value × Stack → Except Fault Stack}
    (h : ∀ v t, Respects t ⟨p, q⟩ (k (v, t))) : s.Respects ⟨p + 1, q⟩ (s.popValue >>= k) := by
  unfold Stack.popValue
  rw [bind_assoc]
  exact Respects.pop fun x t => h x.value t

/-- Arguments are taken off together: all of them, or none if there are too few. -/
theorem popValues_eq (s : Stack) (count : Nat) :
    (s.height < count ∧ s.popValues count = .error .stackUnderflow) ∨
    ∃ vs t, s.popValues count = .ok (vs, t) ∧ vs.length = count ∧ s.Replaces ⟨count, 0⟩ t := by
  rcases s with ⟨slots, height, h⟩
  by_cases hlt : height < count
  · left
    simp [popValues, popMany?, hlt]
  · right
    have hle : count ≤ slots.length := by omega
    refine ⟨(slots.take count).reverse.map Slot.value, ⟨slots.drop count, height - count, by simp [h]⟩, ?_, ?_, ?_⟩
    · simp only [popValues, popMany?, hlt, if_false]
    · simp [hle]
    · exact ⟨Nat.not_lt.1 hlt, [], rfl, rfl⟩

/-! ### The operations -/

theorem respects_mapInt (s : Stack) (limit : Nat) (f : Int64 → Slot) : s.Respects ⟨1, 1⟩ (s.mapInt limit f) :=
  Respects.popInt fun _ t => respects_checkedPush t limit _

theorem respects_mapFloat (s : Stack) (limit : Nat) (f : Float → Slot) :
    s.Respects ⟨1, 1⟩ (s.mapFloat limit f) :=
  Respects.popFloat fun _ t => respects_checkedPush t limit _

theorem respects_mapBool (s : Stack) (limit : Nat) (f : Bool → Slot) : s.Respects ⟨1, 1⟩ (s.mapBool limit f) :=
  Respects.popBool fun _ t => respects_checkedPush t limit _

theorem respects_mapInts (s : Stack) (limit : Nat) (f : Int64 → Int64 → Slot) :
    s.Respects ⟨2, 1⟩ (s.mapInts limit f) :=
  Respects.popInt fun _ _ => Respects.popInt fun _ t => respects_checkedPush t limit _

theorem respects_mapFloats (s : Stack) (limit : Nat) (f : Float → Float → Slot) :
    s.Respects ⟨2, 1⟩ (s.mapFloats limit f) :=
  Respects.popFloat fun _ _ => Respects.popFloat fun _ t => respects_checkedPush t limit _

theorem respects_intRemainder (s : Stack) (limit : Nat) : s.Respects ⟨2, 1⟩ (s.intRemainder limit) := by
  refine Respects.popInt fun b _ => Respects.popInt fun a t => ?_
  by_cases hb : b = 0
  · simp only [hb, if_true]
    intro h
    cases h
  · simp only [hb, if_false]
    exact respects_checkedPush t limit _

/-- A duplicate is pushed above the slot that it copies. -/
theorem respects_duplicate (s : Stack) (limit : Nat) : s.Respects ⟨1, 2⟩ (s.duplicate limit) := by
  refine Respects.pop fun x t => ?_
  change t.Respects ⟨0, 2⟩ ((t.push x).checkedPush limit x)
  obtain h | h := (t.push x).checkedPush_cases limit x
  · rw [h]
    exact ⟨Nat.zero_le _, [x, x], rfl, rfl⟩
  · rw [h]
    exact nofun

theorem respects_unboxInt (s : Stack) (limit : Nat) : s.Respects ⟨1, 1⟩ (s.unboxInt limit) := by
  refine Respects.popRef fun v t => ?_
  cases v with
  | int n => exact respects_checkedPush t limit _
  | _ => exact respects_type t _ _

theorem respects_unboxFloat (s : Stack) (limit : Nat) : s.Respects ⟨1, 1⟩ (s.unboxFloat limit) := by
  refine Respects.popRef fun v t => ?_
  cases hv : v.number? with
  | some x =>
    simp only [hv]
    exact respects_checkedPush t limit _
  | none =>
    simp only [hv]
    exact respects_type t _ _

/-- What is appended to is written in place, without looking at the limit. -/
private theorem respects_place (s : Stack) (x : Slot) : s.Respects ⟨0, 1⟩ (.ok (s.push x)) :=
  ⟨Nat.zero_le _, [x], rfl, rfl⟩

theorem respects_listAppend (s : Stack) : s.Respects ⟨2, 1⟩ s.listAppend := by
  refine Respects.popValue fun v _ => Respects.pop fun x t => ?_
  cases x with
  | ref w =>
    cases w with
    | list elements => exact respects_place t _
    | _ => exact respects_type t _ _
  | _ => exact respects_type t _ _

theorem respects_mapPut (s : Stack) : s.Respects ⟨3, 1⟩ s.mapPut := by
  refine Respects.popValue fun v _ => Respects.popValue fun k _ => Respects.pop fun x t => ?_
  cases x with
  | ref w =>
    cases w with
    | map entries => exact respects_place t _
    | _ => exact respects_type t _ _
  | _ => exact respects_type t _ _

/-- A known runtime function replaces its arguments by its result. -/
theorem respects_invoke (s : Stack) (limit : Nat) {code : UInt8} {f : RuntimeFunction}
    (hf : RuntimeFunction.ofCode? code = some f) : s.Respects ⟨f.arity, 1⟩ (s.invoke limit code) := by
  simp only [invoke, hf]
  obtain ⟨hlt, he⟩ | ⟨vs, t, he, hvs, ht⟩ := s.popValues_eq f.arity
  · rw [he]
    exact fun _ => ⟨rfl, hlt⟩
  · rw [he]
    change s.Respects _ (f.apply vs >>= fun v => t.checkedPush limit (f.resultSlot v))
    cases hv : f.apply vs with
    | error g =>
      obtain ⟨cause, rfl⟩ := RuntimeFunction.apply_error hvs hv
      exact respects_type s _ cause
    | ok v =>
      change s.Respects _ (t.checkedPush limit (f.resultSlot v))
      obtain h | h := t.checkedPush_cases limit (f.resultSlot v)
      · obtain ⟨hle, top, htop, hslots⟩ := ht
        rw [h]
        refine ⟨hle, [f.resultSlot v], rfl, ?_⟩
        rw [List.length_eq_zero_iff.1 htop] at hslots
        rw [slots_push, hslots]
        rfl
      · rw [h]
        exact nofun

end Stack

/-! ### Constants -/

namespace Bytecode

/-- An instruction without a defect names a constant of the kind that it needs. -/
theorem constant_of_operandDefect? {constants : Array Value} {i : Instruction} {need : ConstantNeed} {n : Nat}
    (hneed : i.opcode.constantNeed? = some need) (hn : constantIndex? i = some n)
    (h : operandDefect? constants i = none) : ∃ v, constants[n]? = some v ∧ need.accepts v = true := by
  unfold operandDefect? at h
  split at h
  · cases hneed
  · simp only [hneed, hn] at h
    split at h
    · cases h
    · split at h
      · exact ⟨_, by assumption, by assumption⟩
      · cases h

theorem intAt_of_accepts {b : Bytecode} {index : UInt16} {v : Value} (h : b.constants[index.toNat]? = some v)
    (hv : ConstantNeed.int.accepts v = true) : ∃ n, v = .int n ∧ b.intAt index = .ok n := by
  cases v with
  | int n => exact ⟨n, rfl, by simp [intAt, constantAt, h, bind, Except.bind]⟩
  | _ => cases hv

theorem floatAt_of_accepts {b : Bytecode} {index : UInt16} {v : Value} (h : b.constants[index.toNat]? = some v)
    (hv : ConstantNeed.float.accepts v = true) : ∃ x, v = .float x ∧ b.floatAt index = .ok x := by
  cases v with
  | float x => exact ⟨x, rfl, by simp [floatAt, constantAt, h, bind, Except.bind]⟩
  | _ => cases hv

theorem nameAt_of_accepts {b : Bytecode} {index : UInt16} {v : Value} (h : b.constants[index.toNat]? = some v)
    (hv : ConstantNeed.name.accepts v = true) : ∃ s, v = .string s ∧ b.nameAt index = .ok s := by
  cases v with
  | string s => exact ⟨s, rfl, by simp [nameAt, constantAt, h, bind, Except.bind]⟩
  | _ => cases hv

end Bytecode

/-! ### The instructions -/

namespace Instruction

open Stack

/-- Whether an instruction that ends at `stop` can lead to an offset. -/
def LeadsTo (stop : Nat) (i : Instruction) (ip : Nat) : Prop :=
  (ip = stop ∧ i.opcode ≠ .jump ∧ i.opcode ≠ .halt) ∨
  ∃ d : Int16, Bytecode.jumpDistance? i = some d.toInt ∧ ip = jumpTarget stop d

/-- What the machine may answer to an instruction with a given effect. -/
def Respects (constants : Array Value) (stop : Nat) (s : Stack) (i : Instruction) (e : StackEffect) :
    Except Fault Action → Prop
  | .ok (.next t ip) => s.Replaces e t ∧ i.LeadsTo stop ip
  | .ok (.call _ arguments t ip) =>
    s.Replaces ⟨e.pops, 0⟩ t ∧ e.pushes = 1 ∧ arguments.length = e.pops ∧ ip = stop ∧ i.opcode ≠ .halt ∧
      i.opcode ≠ .jump
  | .ok (.halt _) => i.opcode = .halt
  | .error f => f.preventable →
    (f = .stackUnderflow ∧ s.height < e.pops) ∨ (i.opcode = .halt ∧ s.height ≠ 1 ∧ f = .stackImbalance s.height) ∨
      Bytecode.operandDefect? constants i ≠ none

/-- An instruction that only works on the stack. -/
private theorem respects_next {constants : Array Value} {stop : Nat} {s : Stack} {i : Instruction} {e : StackEffect}
    {r : Except Fault Stack} (h : s.Respects e r) (hjump : i.opcode ≠ .jump) (hhalt : i.opcode ≠ .halt) :
    i.Respects constants stop s e (r.map fun t => .next t stop) := by
  cases r with
  | ok t => exact ⟨h, .inl ⟨rfl, hjump, hhalt⟩⟩
  | error f => exact fun hf => .inl (h hf)

/-- An instruction that works on the stack after it has looked at the constants. -/
private theorem respects_constant {constants : Array Value} {stop : Nat} {s : Stack} {i : Instruction}
    {e : StackEffect} {α : Type} {r : Except Fault α} {k : α → Except Fault Stack}
    (hr : Bytecode.operandDefect? constants i = none → ∃ a, r = .ok a) (hk : ∀ a, s.Respects e (k a))
    (hjump : i.opcode ≠ .jump) (hhalt : i.opcode ≠ .halt) :
    i.Respects constants stop s e ((r >>= k).map fun t => .next t stop) := by
  cases r with
  | ok a => exact respects_next (hk a) hjump hhalt
  | error f =>
    refine fun _ => .inr (.inr fun hd => ?_)
    obtain ⟨a, ha⟩ := hr hd
    cases ha

/-- A conditional jump: the bool is taken off, and either way may be taken. -/
private theorem respects_branch {constants : Array Value} {stop : Nat} {s : Stack} {i : Instruction}
    (d : Int16) (choose : Bool → Nat) (hi : Bytecode.jumpDistance? i = some d.toInt) (hjump : i.opcode ≠ .jump)
    (hhalt : i.opcode ≠ .halt) (hchoose : ∀ b, choose b = stop ∨ choose b = jumpTarget stop d) :
    i.Respects constants stop s ⟨1, 0⟩ (s.popBool >>= fun p => .ok (.next p.2 (choose p.1))) := by
  cases s using push_cases with
  | empty => exact fun _ => .inl ⟨rfl, Nat.one_pos⟩
  | push t x =>
    cases x with
    | bool b =>
      refine ⟨⟨Nat.succ_le_succ (Nat.zero_le _), [], rfl, rfl⟩, ?_⟩
      obtain h | h := hchoose b
      · exact .inl ⟨h, hjump, hhalt⟩
      · exact .inr ⟨d, hi, h⟩
    | _ => exact fun hf => nomatch hf

/-- The machine and the table of stack effects agree on every instruction. -/
theorem execute_respects (c : Context) (stop : Nat) (s : Stack) {i : Instruction} {e : StackEffect}
    (he : i.stackEffect? = some e) : i.Respects c.bytecode.constants stop s e (i.execute c stop s) := by
  obtain ⟨o, x⟩ := i
  cases o
  -- the effects of `invoke` and `callNative` are known from the operand only
  case invoke =>
    have hx : (RuntimeFunction.ofCode? x).map (fun f => (⟨f.arity, 1⟩ : StackEffect)) = some e := he
    obtain ⟨f, hf, rfl⟩ := Option.map_eq_some_iff.1 hx
    exact respects_next (respects_invoke s c.limit hf) nofun nofun
  case callNative =>
    obtain ⟨index, count⟩ := x
    cases he
    have hexec : execute c stop s ⟨.callNative, index, count⟩ = (c.bytecode.nameAt index >>= fun name =>
        s.popValues count.toNat >>= fun p => .ok (.call name p.1 p.2 stop)) := rfl
    rw [hexec]
    cases hname : c.bytecode.nameAt index with
    | error f =>
      refine fun _ => .inr (.inr fun hd => ?_)
      obtain ⟨v, hv, hacc⟩ := Bytecode.constant_of_operandDefect? rfl rfl hd
      obtain ⟨name, -, h⟩ := Bytecode.nameAt_of_accepts hv hacc
      rw [hname] at h
      cases h
    | ok name =>
      obtain ⟨hlt, h⟩ | ⟨vs, t, h, hvs, ht⟩ := s.popValues_eq count.toNat
      · rw [h]
        exact fun _ => .inl ⟨rfl, hlt⟩
      · rw [h]
        exact ⟨ht, rfl, hvs, rfl, nofun, nofun⟩
  case halt =>
    cases he
    obtain ⟨slots, height, rfl⟩ := s
    match slots with
    | [x] => rfl
    | [] => exact fun _ => .inr (.inl ⟨rfl, nofun, rfl⟩)
    | _ :: _ :: _ => exact fun _ => .inr (.inl ⟨rfl, nofun, rfl⟩)
  all_goals cases he
  -- those that say where to go on
  case jump => exact ⟨⟨Nat.zero_le _, [], rfl, rfl⟩, .inr ⟨x, rfl, rfl⟩⟩
  case jumpIfFalse =>
    exact respects_branch x (fun b => if b then stop else jumpTarget stop x) rfl nofun nofun
      fun b => by cases b <;> simp
  case jumpIfTrue =>
    exact respects_branch x (fun b => if b then jumpTarget stop x else stop) rfl nofun nofun
      fun b => by cases b <;> simp
  -- those that name a constant
  case constInt =>
    refine respects_constant (fun hd => ?_) (fun n => respects_checkedPush s c.limit (.int n)) nofun nofun
    obtain ⟨v, hv, hacc⟩ := Bytecode.constant_of_operandDefect? rfl rfl hd
    obtain ⟨n, -, h⟩ := Bytecode.intAt_of_accepts hv hacc
    exact ⟨n, h⟩
  case constFloat =>
    refine respects_constant (fun hd => ?_) (fun n => respects_checkedPush s c.limit (.float n)) nofun nofun
    obtain ⟨v, hv, hacc⟩ := Bytecode.constant_of_operandDefect? rfl rfl hd
    obtain ⟨n, -, h⟩ := Bytecode.floatAt_of_accepts hv hacc
    exact ⟨n, h⟩
  case constant =>
    refine respects_constant (fun hd => ?_) (fun n => respects_checkedPush s c.limit (.ref n)) nofun nofun
    obtain ⟨v, hv, -⟩ := Bytecode.constant_of_operandDefect? rfl rfl hd
    exact ⟨v, by simp [Bytecode.constantAt, hv]⟩
  case getGlobal =>
    refine respects_constant (fun hd => ?_) (fun name => ?_) nofun nofun
    · obtain ⟨v, hv, hacc⟩ := Bytecode.constant_of_operandDefect? rfl rfl hd
      obtain ⟨name, -, h⟩ := Bytecode.nameAt_of_accepts hv hacc
      exact ⟨name, h⟩
    · cases c.globals.get? name with
      | some v => exact respects_checkedPush s c.limit _
      | none => exact fun h => nomatch h
  -- all others only work on the stack
  all_goals refine respects_next ?_ nofun nofun
  case pushNull | pushTrue | pushFalse | emptyList | emptyMap | newList | newMap => exact respects_checkedPush ..
  case dup => exact respects_duplicate ..
  case intRem => exact respects_intRemainder ..
  case unboxInt => exact respects_unboxInt ..
  case unboxFloat => exact respects_unboxFloat ..
  case listAppend => exact respects_listAppend ..
  case mapPut => exact respects_mapPut ..
  case pop =>
    refine Respects.pop fun x t => ?_
    exact ⟨Nat.zero_le _, [], rfl, rfl⟩
  case intAdd | intSub | intMul | intEq | intLt | intLe | intGt | intGe => exact respects_mapInts ..
  case floatAdd | floatSub | floatMul | floatDiv | floatEq | floatLt | floatLe | floatGt | floatGe =>
    exact respects_mapFloats ..
  case intNeg | intToFloat | intToBool | intToString | boxInt => exact respects_mapInt ..
  case floatNeg | floatToBool | floatToString | boxFloat => exact respects_mapFloat ..
  case not | boolToString | boxBool => exact respects_mapBool ..

end Instruction

end TemplateExpr
