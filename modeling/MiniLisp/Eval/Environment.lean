import MiniLisp.Value.Basic

/-!
# Environments

An environment binds symbols to functions. Its bindings lie in frames, which are numbered in the
order in which they were opened; frame zero is the root. Each other frame has a parent, whose bindings
it sees where it has none of its own. New bindings go into the current frame.

Parents have smaller numbers than their frames. That is part of the type, and it is why looking up a
symbol ends at the root.
-/

namespace MiniLisp

variable {π : Type}

/-- The bindings of a frame, the newest first, and the number of its parent. -/
structure Frame (π : Type) where
  bindings : List (Symbol × Procedure π) := []
  parent : Option Nat := none

/-- The function that a symbol is bound to in this frame. -/
def Frame.find? (frame : Frame π) (symbol : Symbol) : Option (Procedure π) :=
  frame.bindings.lookup symbol

/-- The frame with a symbol bound anew. -/
def Frame.bind (frame : Frame π) (symbol : Symbol) (f : Procedure π) : Frame π :=
  { frame with bindings := (symbol, f) :: frame.bindings }

/-- An environment: its frames by number, and the number of the one that takes new bindings. -/
structure Env (π : Type) where
  frames : Array (Frame π)
  current : Nat
  current_lt : current < frames.size
  parent_lt : ∀ (i : Nat) (h : i < frames.size) (p : Nat), frames[i].parent = some p → p < i

namespace Env

/-- The environment of an empty root. -/
def empty : Env π where
  frames := #[{}]
  current := 0
  current_lt := by simp
  parent_lt i h p hp := by
    have hi : i = 0 := by simpa using h
    subst hi
    simp at hp

/-- The number of the root. -/
def root (_ : Env π) : Nat := 0

/-- How many frames there are from the root to the current frame. -/
def depth (env : Env π) : Nat := env.frames.size

/-! ## Frames -/

/-- The current frame. -/
def currentFrame (env : Env π) : Frame π :=
  have := env.current_lt
  env.frames[env.current]

/-- Opens a child of the current frame, which becomes the current frame. -/
def push (env : Env π) : Env π where
  frames := env.frames.push { parent := some env.current }
  current := env.frames.size
  current_lt := by simp
  parent_lt i h p hp := by
    have hcurrent := env.current_lt
    rw [Array.getElem_push] at hp
    split at hp
    · next hi => exact env.parent_lt i hi p hp
    · next hi =>
      simp only [Option.some.injEq] at hp
      omega

/-- Goes back to the frame `parent`, which is the parent of the current frame, and forgets the
current frame. -/
def popTo (env : Env π) (parent : Nat) (h : env.currentFrame.parent = some parent) :
    Env π where
  frames := env.frames.take env.current
  current := parent
  current_lt := by
    have hparent := env.parent_lt env.current env.current_lt parent h
    have hcurrent := env.current_lt
    simp only [Array.take_eq_extract, Array.size_extract]
    omega
  parent_lt i hi p hp := by
    simp only [Array.take_eq_extract, Array.size_extract] at hi
    exact env.parent_lt i (by omega) p (by simpa using hp)

/-- Forgets the current frame and goes back to its parent. The root stays. -/
def pop? (env : Env π) : Option (Env π) :=
  match h : env.currentFrame.parent with
  | none => none
  | some parent => some (env.popTo parent h)

/-! ## Bindings -/

/-- Looks a symbol up in a frame and, if it is not bound there, in the frames around it. In a frame
that does not exist nothing is bound. -/
def findFrom? (env : Env π) (frame : Nat) (symbol : Symbol) : Option (Procedure π) :=
  if h : frame < env.frames.size then
    match env.frames[frame].find? symbol with
    | some f => some f
    | none =>
      match hp : env.frames[frame].parent with
      | none => none
      | some parent => env.findFrom? parent symbol
  else none
termination_by frame
decreasing_by exact env.parent_lt frame h parent hp

/-- Looks a symbol up from the current frame outwards. -/
def find? (env : Env π) (symbol : Symbol) : Option (Procedure π) :=
  env.findFrom? env.current symbol

/-- Whether a symbol is bound. -/
def contains (env : Env π) (symbol : Symbol) : Bool := (env.find? symbol).isSome

/-- Binds a symbol in the current frame. -/
def bind (env : Env π) (symbol : Symbol) (f : Procedure π) : Env π where
  frames := env.frames.modify env.current (Frame.bind · symbol f)
  current := env.current
  current_lt := by simpa using env.current_lt
  parent_lt i h p hp := by
    simp only [Array.size_modify] at h
    rw [Array.getElem_modify] at hp
    split at hp <;> exact env.parent_lt i h p hp

/-- Binds a name to the function of that name. -/
def define (env : Env π) (name : String) (body : Callable π) : Env π :=
  env.bind ⟨name⟩ ⟨⟨name⟩, body⟩

/-- Binds the arithmetic operators in the current frame. -/
def defineArithmetic (env : Env π) : Env π :=
  [Operator.add, .sub, .mul, .div].foldl (fun env op => env.define op.name (.arithmetic op)) env

/-- The environment whose root binds the arithmetic operators. -/
def standard : Env π := empty.defineArithmetic

end Env

end MiniLisp
