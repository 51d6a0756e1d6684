import Mathlib.Data.Finmap
import MiniLisp.Eval.Environment

/-!
# Environments are stacks of finite maps

An environment keeps its frames in an array and finds its way outwards by the numbers of parents.
Frames are opened and closed in the order of a stack only, so the array always holds the frames from
the root to the current one, and an environment is no more than a stack of finite maps:

* opening a frame puts an empty map on top;
* closing one takes the top map off, unless it is the only one;
* binding a symbol changes the top map at that symbol;
* a symbol means what it is bound to in the topmost map that has it.

Results:
1. `Env.Stacked.step`: a change keeps the frames of an environment on top of each other, and does to
   its stack what it does to a stack.
2. `Env.Stacked.findFrom?_eq`: looking up a symbol in the frames is looking it up in the maps.
3. `Env.find?_standard_eq_some_iff`: the standard environment binds the operators.
4. `Env.refines_stack`: an environment is a stack, after any sequence of changes to a new one.
-/

namespace MiniLisp

variable {π : Type}

/-! ## Definitions -/

/-- The function that an operator stands for. -/
def Operator.procedure (op : Operator) : Procedure π := ⟨⟨op.name⟩, .arithmetic op⟩

/-- The bindings of a frame, without their order. -/
abbrev Bindings (π : Type) := Finmap fun _ : Symbol => Procedure π

/-- The bindings of a frame as a finite map. -/
def Frame.toMap (frame : Frame π) : Bindings π :=
  frame.bindings.foldr (fun binding map => map.insert binding.1 binding.2) ∅

/-- Finite maps on top of each other, the topmost first. -/
abbrev Stack (π : Type) := List (Bindings π)

/-- What changes an environment. -/
inductive EnvChange (π : Type) where
  | push
  | pop
  | bind (symbol : Symbol) (f : Procedure π)
  | define (name : String) (body : Callable π)
  | defineArithmetic

namespace Stack

/-- The bindings of frames, the last frame on top. -/
def ofFrames (frames : Array (Frame π)) : Stack π := (frames.toList.map Frame.toMap).reverse

/-- Puts an empty map on top. -/
def push (stack : Stack π) : Stack π := ∅ :: stack

/-- Takes the top map off. The lowest map stays. -/
def pop? : Stack π → Option (Stack π)
  | _ :: map :: maps => some (map :: maps)
  | _ => none

/-- Binds a symbol in the top map. -/
def bind (symbol : Symbol) (f : Procedure π) : Stack π → Stack π
  | [] => []
  | map :: maps => map.insert symbol f :: maps

/-- Binds the names of operators in the top map. -/
def bindOperators (stack : Stack π) (ops : List Operator) : Stack π :=
  ops.foldl (fun stack op => bind ⟨op.name⟩ op.procedure stack) stack

/-- The stack after a change. -/
def step (stack : Stack π) : EnvChange π → Stack π
  | .push => stack.push
  | .pop => stack.pop?.getD stack
  | .bind symbol f => stack.bind symbol f
  | .define name body => stack.bind ⟨name⟩ ⟨⟨name⟩, body⟩
  | .defineArithmetic => stack.bindOperators [.add, .sub, .mul, .div]

/-- What a symbol is bound to in the topmost map that has it. -/
def find? (stack : Stack π) (symbol : Symbol) : Option (Procedure π) :=
  stack.findSome? (Finmap.lookup symbol)

/-- The lowest maps, up to the one with the number `top`. The lowest map has the number zero. -/
def upTo (stack : Stack π) (top : Nat) : Stack π := stack.drop (stack.length - (top + 1))

end Stack

namespace Env

/-- The bindings of the frames of an environment. -/
def stack (env : Env π) : Stack π := .ofFrames env.frames

/-- The environment after a change. -/
def step (env : Env π) : EnvChange π → Env π
  | .push => env.push
  | .pop => env.pop?.getD env
  | .bind symbol f => env.bind symbol f
  | .define name body => env.define name body
  | .defineArithmetic => env.defineArithmetic

/-- The environment after several changes. -/
def run (env : Env π) (changes : List (EnvChange π)) : Env π := changes.foldl step env

/-- The number of the frame that lies `steps` parents outwards from a frame. -/
def outwards (env : Env π) : (steps : Nat) → (frame : Nat) → Option Nat
  | 0, frame => some frame
  | steps + 1, frame => do
    let frame ← env.frames[frame]?
    env.outwards steps (← frame.parent)

/-- The frames lie on top of each other: the newest one is the current one, and each but the root
has the one before it as its parent. -/
structure Stacked (env : Env π) : Prop where
  depth_eq : env.depth = env.current + 1
  parent_zero : ∀ h : 0 < env.frames.size, env.frames[0].parent = none
  parent_succ : ∀ (i : Nat) (h : i + 1 < env.frames.size), env.frames[i + 1].parent = some i

/-- `env.Refines stack`: the environment is another form of the stack. What changes it, changes the
stack in the same way, and what is looked up in it, is looked up in the stack. -/
structure Refines (env : Env π) (stack : Stack π) : Prop where
  stack_eq : env.stack = stack
  stack_ne_nil : stack ≠ []
  depth_eq_length : env.depth = stack.length
  stacked : env.Stacked
  /-- A new frame is a new map on top, and its number is the one after the last. -/
  push_eq : env.push.stack = ∅ :: stack ∧ env.push.current = env.depth
  /-- Only the root cannot be closed, -/
  pop?_eq_none_iff : env.pop? = none ↔ env.depth = 1
  /-- and the attempt to close it changes nothing. -/
  pop_root : env.depth = 1 → env.step .pop = env
  /-- Closing any other frame takes the top map off and goes to the frame with the number below. -/
  pop?_eq_some : ∀ popped, env.pop? = some popped →
    popped.stack = stack.tail ∧ popped.current + 1 = env.current
  /-- Binding changes the top map at the symbol and leaves the others as they are. -/
  bind_eq : ∀ symbol f, ∃ top below, stack = top :: below ∧
    (env.bind symbol f).stack = top.insert symbol f :: below
  find?_eq : ∀ symbol, env.find? symbol = stack.findSome? (Finmap.lookup symbol)
  findFrom?_eq : ∀ frame symbol, env.findFrom? frame symbol =
    if frame < env.depth then (stack.upTo frame).findSome? (Finmap.lookup symbol) else none
  /-- The way outwards from a frame goes down one number at a time, so that it stays among the
  frames and ends behind the root. -/
  outwards_eq : ∀ frame, frame < env.depth → ∀ steps,
    env.outwards steps frame = if steps ≤ frame then some (frame - steps) else none

end Env

/-! ## Frames as maps -/

theorem Frame.lookup_toMap (frame : Frame π) (symbol : Symbol) :
    frame.toMap.lookup symbol = frame.find? symbol := by
  obtain ⟨bindings, parent⟩ := frame
  simp only [toMap, find?]
  induction bindings with
  | nil => rfl
  | cons binding rest ih =>
    obtain ⟨bound, f⟩ := binding
    rw [List.foldr_cons, List.lookup_cons]
    by_cases h : symbol = bound
    · subst h
      simp
    · have hne : (symbol == bound) = false := by simpa using h
      rw [Finmap.lookup_insert_of_ne _ h, ih, hne]

namespace Env

/-! ## The current frame is the last one -/

theorem Stacked.size_eq {env : Env π} (h : env.Stacked) : env.frames.size = env.current + 1 :=
  h.depth_eq

/-- The current frame lies on top of all others. -/
theorem Stacked.exists_below {env : Env π} (h : env.Stacked) :
    ∃ below : Array (Frame π),
      env.frames = below.push env.currentFrame ∧ below.size = env.current := by
  have hsize := h.size_eq
  refine ⟨env.frames.pop, ?_, by simp [hsize]⟩
  refine Array.ext (by simp [hsize]) ?_
  intro i hi hi'
  rw [Array.getElem_push]
  split
  · simp
  · next hlast =>
    have hi : i = env.current := by
      simp only [Array.size_pop] at hlast
      omega
    subst hi
    rfl

theorem Stacked.parent_currentFrame {env : Env π} (h : env.Stacked) :
    env.currentFrame.parent = if env.current = 0 then none else some (env.current - 1) := by
  unfold currentFrame
  split
  · next hzero => simp only [hzero, h.parent_zero]
  · next hpos =>
    obtain ⟨below, hbelow⟩ := Nat.exists_eq_succ_of_ne_zero hpos
    simp only [hbelow, Nat.succ_eq_add_one, Nat.add_sub_cancel, h.parent_succ]

/-! ## Changes keep the frames on top of each other -/

theorem stacked_empty : (empty : Env π).Stacked where
  depth_eq := rfl
  parent_zero _ := rfl
  parent_succ i h := by simp [empty] at h

theorem Stacked.push {env : Env π} (h : env.Stacked) : env.push.Stacked where
  depth_eq := by simp [depth, Env.push]
  parent_zero _ := by
    have hpos : 0 < env.frames.size := Nat.zero_lt_of_lt env.current_lt
    simp only [Env.push, Array.getElem_push_lt hpos, h.parent_zero]
  parent_succ i hi := by
    have hsize := h.size_eq
    simp only [Env.push, Array.size_push] at hi
    simp only [Env.push, Array.getElem_push]
    split
    · next hold => exact h.parent_succ i hold
    · next hnew =>
      simp only [Option.some.injEq]
      omega

theorem Stacked.bind {env : Env π} (h : env.Stacked) (symbol : Symbol) (f : Procedure π) :
    (env.bind symbol f).Stacked where
  depth_eq := by simpa [depth, Env.bind] using h.depth_eq
  parent_zero _ := by
    simp only [Env.bind, Array.getElem_modify]
    split <;> exact h.parent_zero _
  parent_succ i hi := by
    simp only [Env.bind, Array.size_modify] at hi
    simp only [Env.bind, Array.getElem_modify]
    split <;> exact h.parent_succ i hi

/-- The root is never closed; any other frame is, and the frame below it becomes the current one. -/
theorem Stacked.pop?_cases {env : Env π} (h : env.Stacked) :
    (env.current = 0 ∧ env.pop? = none) ∨
      ∃ (parent : Nat) (hparent : env.currentFrame.parent = some parent),
        env.current = parent + 1 ∧ env.pop? = some (env.popTo parent hparent) := by
  have hcurrent := h.parent_currentFrame
  unfold pop?
  split
  · next hnone =>
    rw [hnone] at hcurrent
    refine .inl ⟨?_, rfl⟩
    by_contra hpos
    simp [hpos] at hcurrent
  · next parent hparent =>
    rw [hparent] at hcurrent
    refine .inr ⟨parent, hparent, ?_, rfl⟩
    split at hcurrent
    · cases hcurrent
    · simp only [Option.some.injEq] at hcurrent
      omega

theorem Stacked.popTo {env : Env π} (h : env.Stacked) {parent : Nat}
    (hparent : env.currentFrame.parent = some parent) (hcurrent : env.current = parent + 1) :
    (env.popTo parent hparent).Stacked where
  depth_eq := by
    have hsize := h.size_eq
    simp only [depth, Env.popTo, Array.take_eq_extract, Array.size_extract]
    omega
  parent_zero _ := by
    simp only [Env.popTo, Array.take_eq_extract, Array.getElem_extract, Nat.zero_add]
    exact h.parent_zero _
  parent_succ i hi := by
    simp only [Env.popTo, Array.take_eq_extract, Array.size_extract] at hi
    simp only [Env.popTo, Array.take_eq_extract, Array.getElem_extract, Nat.zero_add]
    exact h.parent_succ i (by omega)

end Env

/-! ## Changes of the stack -/

namespace Stack

theorem ofFrames_push (frames : Array (Frame π)) (frame : Frame π) :
    ofFrames (frames.push frame) = frame.toMap :: ofFrames frames := by
  simp [ofFrames]

theorem length_ofFrames (frames : Array (Frame π)) : (ofFrames frames).length = frames.size := by
  simp [ofFrames]

theorem pop?_cons {map : Bindings π} {maps : Stack π} (h : maps ≠ []) :
    pop? (map :: maps) = some maps := by
  cases maps with
  | nil => exact absurd rfl h
  | cons _ _ => rfl

theorem eq_tail_of_pop? {stack popped : Stack π} (h : stack.pop? = some popped) :
    popped = stack.tail := by
  unfold pop? at h
  split at h
  · cases h
    rfl
  · cases h

/-- The lowest maps belong to the first frames. -/
theorem upTo_ofFrames (frames : Array (Frame π)) (top : Nat) :
    (ofFrames frames).upTo top = ofFrames (frames.take (top + 1)) := by
  have hlength : (frames.toList.map Frame.toMap).length = frames.size := by simp
  unfold upTo
  rw [length_ofFrames, ofFrames, ← hlength, ← List.reverse_take]
  simp [ofFrames]

theorem ofFrames_take_succ (frames : Array (Frame π)) {top : Nat} (h : top < frames.size) :
    ofFrames (frames.take (top + 1)) = frames[top].toMap :: ofFrames (frames.take top) := by
  have htop : top < frames.toList.length := by simpa using h
  simp [ofFrames, List.take_succ_eq_append_getElem htop]

theorem find?_cons (map : Bindings π) (maps : Stack π) (symbol : Symbol) :
    find? (map :: maps) symbol = (map.lookup symbol).or (find? maps symbol) := by
  rw [find?, List.findSome?_cons]
  cases map.lookup symbol <;> rfl

end Stack

namespace Env

theorem stack_empty : (empty : Env π).stack = [∅] := rfl

theorem stack_push (env : Env π) : env.push.stack = env.stack.push :=
  Stack.ofFrames_push env.frames _

theorem Stacked.stack_bind {env : Env π} (h : env.Stacked) (symbol : Symbol) (f : Procedure π) :
    (env.bind symbol f).stack = env.stack.bind symbol f := by
  obtain ⟨below, hframes, hsize⟩ := h.exists_below
  have hbound : (env.bind symbol f).frames = below.push (env.currentFrame.bind symbol f) := by
    refine Array.ext (by simp [Env.bind, hframes]) ?_
    intro i hi hi'
    simp only [Env.bind, hframes, Array.getElem_modify, Array.getElem_push, ← hsize]
    by_cases hlast : i = below.size
    · simp [hlast]
    · rw [Array.size_push] at hi'
      rw [if_neg (Ne.symm hlast), dif_pos (by omega), dif_pos (by omega)]
  rw [stack, stack, hbound, hframes, Stack.ofFrames_push, Stack.ofFrames_push]
  rfl

theorem Stacked.stack_pop? {env : Env π} (h : env.Stacked) :
    env.pop?.map stack = env.stack.pop? := by
  obtain ⟨below, hframes, hsize⟩ := h.exists_below
  rw [show env.stack = env.currentFrame.toMap :: Stack.ofFrames below by
    rw [stack, hframes, Stack.ofFrames_push]]
  obtain ⟨hcurrent, hpop⟩ | ⟨parent, hparent, hcurrent, hpop⟩ := h.pop?_cases
  · have hnil : below = #[] := Array.eq_empty_of_size_eq_zero (hsize.trans hcurrent)
    rw [hpop, hnil]
    rfl
  · have hbelow : (env.popTo parent hparent).frames = below := by
      simp [Env.popTo, hframes, ← hsize]
    have hne : Stack.ofFrames below ≠ [] := by
      rw [← List.length_pos_iff, Stack.length_ofFrames]
      omega
    rw [hpop, Option.map_some, stack, hbelow, Stack.pop?_cons hne]

/-- Binding operators one after the other binds them in the top map. -/
theorem Stacked.bindOperators {env : Env π} (h : env.Stacked) (ops : List Operator) :
    (ops.foldl (fun env op => env.define op.name (.arithmetic op)) env).Stacked ∧
      (ops.foldl (fun env op => env.define op.name (.arithmetic op)) env).stack =
        env.stack.bindOperators ops := by
  induction ops generalizing env with
  | nil => exact ⟨h, rfl⟩
  | cons op ops ih =>
    obtain ⟨hstacked, hstack⟩ := ih (h.bind ⟨op.name⟩ op.procedure)
    rw [h.stack_bind] at hstack
    exact ⟨hstacked, hstack⟩

/-- Every change keeps the frames on top of each other, and does to the stack of the environment
what it does to a stack. -/
theorem Stacked.step {env : Env π} (h : env.Stacked) (change : EnvChange π) :
    (env.step change).Stacked ∧ (env.step change).stack = env.stack.step change := by
  cases change with
  | push => exact ⟨h.push, env.stack_push⟩
  | pop =>
    have hstack := h.stack_pop?
    obtain ⟨_, hpop⟩ | ⟨parent, hparent, hcurrent, hpop⟩ := h.pop?_cases
    · simp only [Env.step, Stack.step, ← hstack, hpop]
      exact ⟨h, rfl⟩
    · simp only [Env.step, Stack.step, ← hstack, hpop]
      exact ⟨h.popTo hparent hcurrent, rfl⟩
  | bind symbol f => exact ⟨h.bind symbol f, h.stack_bind symbol f⟩
  | define name body => exact ⟨h.bind _ _, h.stack_bind _ _⟩
  | defineArithmetic => exact h.bindOperators _

theorem Stacked.run {env : Env π} (h : env.Stacked) (changes : List (EnvChange π)) :
    (env.run changes).Stacked ∧ (env.run changes).stack = changes.foldl Stack.step env.stack := by
  induction changes generalizing env with
  | nil => exact ⟨h, rfl⟩
  | cons change rest ih =>
    obtain ⟨hstacked, hstack⟩ := h.step change
    rw [List.foldl_cons, ← hstack]
    exact ih hstacked

/-! ## Looking up -/

theorem findFrom?_of_lt (env : Env π) {frame : Nat} (h : frame < env.frames.size)
    (symbol : Symbol) :
    env.findFrom? frame symbol =
      (env.frames[frame].find? symbol).or
        (env.frames[frame].parent.bind fun parent => env.findFrom? parent symbol) := by
  rw [findFrom?, dif_pos h]
  split
  · next f hf => rw [hf, Option.some_or]
  · next hnone =>
    rw [hnone, Option.none_or]
    split
    · next hparent => rw [hparent, Option.bind_none]
    · next parent hparent => rw [hparent, Option.bind_some]

/-- From a frame outwards, a symbol means what it is bound to in the topmost map that has it, of the
maps up to that of the frame. -/
theorem Stacked.findFrom?_eq {env : Env π} (h : env.Stacked) (frame : Nat) (symbol : Symbol) :
    env.findFrom? frame symbol =
      if frame < env.depth then (env.stack.upTo frame).find? symbol else none := by
  rw [depth, stack, Stack.upTo_ofFrames]
  split
  · next hlt =>
    induction frame with
    | zero =>
      rw [env.findFrom?_of_lt hlt, h.parent_zero, Stack.ofFrames_take_succ _ hlt, Stack.find?_cons,
        Frame.lookup_toMap]
      simp [Stack.ofFrames, Stack.find?]
    | succ frame ih =>
      rw [env.findFrom?_of_lt hlt, h.parent_succ, Option.bind_some, ih (Nat.lt_of_succ_lt hlt),
        Stack.ofFrames_take_succ _ hlt, Stack.find?_cons, Frame.lookup_toMap]
  · next hge => rw [findFrom?, dif_neg hge]

theorem Stacked.find?_eq {env : Env π} (h : env.Stacked) (symbol : Symbol) :
    env.find? symbol = env.stack.find? symbol := by
  have hall : env.stack.upTo env.current = env.stack := by
    rw [Stack.upTo, stack, Stack.length_ofFrames, h.size_eq, Nat.sub_self, List.drop_zero]
  rw [find?, h.findFrom?_eq, depth, if_pos env.current_lt, hall]

/-- The way outwards goes through all the frames below and ends at the root. -/
theorem Stacked.outwards_eq {env : Env π} (h : env.Stacked) {frame : Nat}
    (hframe : frame < env.depth) (steps : Nat) :
    env.outwards steps frame = if steps ≤ frame then some (frame - steps) else none := by
  induction steps generalizing frame with
  | zero => simp [outwards]
  | succ steps ih =>
    have hlt : frame < env.frames.size := hframe
    rw [outwards, Array.getElem?_eq_getElem hlt, Option.bind_eq_bind, Option.bind_some]
    cases frame with
    | zero => simp [h.parent_zero]
    | succ frame =>
      have hbelow : frame < env.depth := Nat.lt_of_succ_lt hframe
      simp [h.parent_succ, ih hbelow, Nat.add_sub_add_right]

end Env

/-! ## The standard environment -/

namespace Stack

theorem find?_bind_cons (map : Bindings π) (maps : Stack π) (symbol other : Symbol)
    (f : Procedure π) :
    (bind symbol f (map :: maps)).find? other =
      if other = symbol then some f else find? (map :: maps) other := by
  rw [bind, find?_cons, find?_cons]
  split
  · next h => rw [h, Finmap.lookup_insert, Option.some_or]
  · next h => rw [Finmap.lookup_insert_of_ne _ h]

/-- After operators were bound, a symbol names one of them or means what it did before. -/
theorem find?_bindOperators {map : Bindings π} {maps : Stack π} {symbol : Symbol} {f : Procedure π}
    (ops : List Operator) (h : (bindOperators (map :: maps) ops).find? symbol = some f) :
    (∃ op : Operator, symbol = ⟨op.name⟩ ∧ f = op.procedure) ∨
      find? (map :: maps) symbol = some f := by
  induction ops generalizing map with
  | nil => exact .inr h
  | cons op ops ih =>
    rcases ih h with hop | hfind
    · exact .inl hop
    · rw [← bind, find?_bind_cons] at hfind
      split at hfind
      · next hsymbol =>
        cases hfind
        exact .inl ⟨op, hsymbol, rfl⟩
      · exact .inr hfind

end Stack

namespace Env

/-- The standard environment binds the names of the operators and nothing else. -/
theorem find?_standard_eq_some_iff {symbol : Symbol} {f : Procedure π} :
    standard.find? symbol = some f ↔ ∃ op : Operator, symbol = ⟨op.name⟩ ∧ f = op.procedure := by
  obtain ⟨hstacked, hstack⟩ := stacked_empty.step (.defineArithmetic : EnvChange π)
  have hstandard : standard.find? symbol =
      (Stack.bindOperators [(∅ : Bindings π)] [.add, .sub, .mul, .div]).find? symbol := by
    exact (hstacked.find?_eq symbol).trans (congrArg (Stack.find? · symbol) hstack)
  rw [hstandard]
  constructor
  · intro h
    rcases Stack.find?_bindOperators _ h with hop | hnone
    · exact hop
    · cases hnone
  · rintro ⟨op, rfl, rfl⟩
    cases op <;> rfl

/-! ## Environments and stacks -/

theorem Stacked.refines {env : Env π} (h : env.Stacked) : env.Refines env.stack := by
  have hsize := h.size_eq
  obtain ⟨below, hframes, _⟩ := h.exists_below
  have hcons : env.stack = env.currentFrame.toMap :: Stack.ofFrames below := by
    rw [stack, hframes, Stack.ofFrames_push]
  exact {
    stack_eq := rfl
    stack_ne_nil := by simp [hcons]
    depth_eq_length := (Stack.length_ofFrames env.frames).symm
    stacked := h
    push_eq := ⟨env.stack_push, rfl⟩
    pop?_eq_none_iff := by
      obtain ⟨hcurrent, hpop⟩ | ⟨parent, _, hcurrent, hpop⟩ := h.pop?_cases
      · simp [hpop, h.depth_eq, hcurrent]
      · simp [hpop, h.depth_eq, hcurrent]
    pop_root := by
      intro hroot
      obtain ⟨_, hpop⟩ | ⟨parent, _, hcurrent, _⟩ := h.pop?_cases
      · rw [Env.step, hpop, Option.getD_none]
      · rw [h.depth_eq] at hroot
        omega
    pop?_eq_some := by
      intro popped hpopped
      have hstack := h.stack_pop?
      rw [hpopped, Option.map_some] at hstack
      refine ⟨Stack.eq_tail_of_pop? hstack.symm, ?_⟩
      obtain ⟨_, hpop⟩ | ⟨parent, _, hcurrent, hpop⟩ := h.pop?_cases
      · rw [hpop] at hpopped
        cases hpopped
      · rw [hpop] at hpopped
        cases hpopped
        exact hcurrent.symm
    bind_eq := fun symbol f => ⟨_, _, hcons, by rw [h.stack_bind, hcons]; rfl⟩
    find?_eq := h.find?_eq
    findFrom?_eq := h.findFrom?_eq
    outwards_eq := fun _ hframe => h.outwards_eq hframe }

/-- The environment after a sequence of changes to a new environment refines the stack after the
same changes to a stack of one map. -/
theorem refines_stack {start : Env π} {base : Stack π}
    (hstart : (start = empty ∧ base = [∅]) ∨
      (start = standard ∧ base = Stack.step [∅] .defineArithmetic))
    (changes : List (EnvChange π)) :
    (start.run changes).Refines (changes.foldl Stack.step base) := by
  have hempty : (empty : Env π).Stacked := stacked_empty
  obtain ⟨hstacked, hstack⟩ : start.Stacked ∧ start.stack = base := by
    rcases hstart with ⟨rfl, rfl⟩ | ⟨rfl, rfl⟩
    · exact ⟨hempty, stack_empty⟩
    · exact hempty.step .defineArithmetic
  obtain ⟨hrun, hrunStack⟩ := hstacked.run changes
  rw [← hstack, ← hrunStack]
  exact hrun.refines

/-- Under an operator of the same name in a second frame, the arithmetic operator is hidden, and it
comes back when that frame is closed; the root cannot be closed. -/
theorem refines_stack_shadowed :
    let plus : Symbol := ⟨"+"⟩
    let shadow : Procedure Empty := ⟨⟨"shadow"⟩, .invalid⟩
    let inner : Env Empty := standard.run [.push, .bind plus shadow]
    let outer : Env Empty := standard.run [.push, .bind plus shadow, .pop]
    inner.find? plus = some shadow ∧ inner.findFrom? 0 plus = some ⟨plus, .arithmetic .add⟩ ∧
      outer.find? plus = some ⟨plus, .arithmetic .add⟩ ∧ outer.pop? = none := by
  intro plus shadow inner outer
  have hinner := refines_stack (.inr ⟨rfl, rfl⟩) [.push, .bind plus shadow]
  have houter := refines_stack (.inr ⟨rfl, rfl⟩) [.push, .bind plus shadow, .pop]
  refine ⟨?_, ?_, ?_, ?_⟩
  · rw [hinner.find?_eq]
    decide
  · rw [hinner.findFrom?_eq, hinner.depth_eq_length]
    decide
  · rw [houter.find?_eq]
    decide
  · rw [houter.pop?_eq_none_iff, houter.depth_eq_length]
    decide

end Env

end MiniLisp
