import MiniLisp.Proofs.Environments
import MiniLisp.Proofs.Evaluation

/-!
# Evaluation looks at the symbols that occur

The evaluator hands its environment on to every subform and asks it for one thing only, which is what
a symbol is bound to. The symbols that it asks for are written in the form: those that stand there as
forms, and the tags of shorthands, which no one sees as forms. So two environments are the same to a
form if its symbols mean the same in both, however their frames came about. Symbols in metadata and
keys of maps do not count.

Results:
1. `Value.mem_symbols_of_mem_subforms`: the symbols of a subform are symbols of the form.
2. `eval_congr_env`: evaluation depends on what the symbols of the form are bound to.
3. `eval_of_agreement`: the same for every run, at every depth and under every limit.
-/

namespace MiniLisp

variable {π : Type}

/-! ## Symbols that occur -/

namespace Value

mutual

/-- The symbols that occur in a form, as symbols or as tags of shorthands. -/
def symbols : Value π → List Symbol
  | .nil => []
  | .unit => []
  | .atom (.symbol s) _ => [s]
  | .atom _ _ => []
  | .list items _ => symbolsItems items
  | .vector items _ => symbolsItems items
  | .map entries _ => symbolsEntries entries
  | .procedure _ _ => []
  | .sugar tag form metaForm _ => tag :: (symbols form ++ symbolsOption metaForm)
termination_by structural v => v

/-- The symbols that occur in a sequence of forms. -/
def symbolsItems : List (Value π) → List Symbol
  | [] => []
  | x :: xs => symbols x ++ symbolsItems xs
termination_by structural vs => vs

/-- The symbols that occur in the forms of a map. -/
def symbolsEntries : List (MapKey × Value π) → List Symbol
  | [] => []
  | (_, x) :: xs => symbols x ++ symbolsEntries xs
termination_by structural vs => vs

/-- The symbols that occur in a form, if there is one. -/
def symbolsOption : Option (Value π) → List Symbol
  | none => []
  | some x => symbols x
termination_by structural v => v

end

theorem symbolsItems_eq_flatMap (items : List (Value π)) :
    symbolsItems items = items.flatMap symbols := by
  induction items with
  | nil => rfl
  | cons x xs ih => rw [symbolsItems, ih, List.flatMap_cons]

theorem symbolsEntries_eq_flatMap (entries : List (MapKey × Value π)) :
    symbolsEntries entries = (entries.map Prod.snd).flatMap symbols := by
  induction entries with
  | nil => rfl
  | cons entry rest ih => rw [symbolsEntries, ih, List.map_cons, List.flatMap_cons]

/-- What occurs in a form beside a symbol that it is itself occurs in its subforms. The tag of a
shorthand is a subform of it. -/
theorem symbols_eq_flatMap {form : Value π} (h : ∀ s md, form ≠ .atom (.symbol s) md) :
    form.symbols = form.subforms.flatMap symbols := by
  cases form with
  | atom a md =>
    cases a with
    | symbol s => exact absurd rfl (h s md)
    | _ => rfl
  | list items md => exact symbolsItems_eq_flatMap items
  | vector items md => exact symbolsItems_eq_flatMap items
  | map entries md => exact symbolsEntries_eq_flatMap entries
  | sugar tag inner metaForm md =>
    cases metaForm <;> simp [symbols, symbolsOption, subforms, sugarItems, symbol]
  | _ => rfl

theorem mem_symbols_of_mem_subforms {form x : Value π} {s : Symbol} (hx : x ∈ form.subforms)
    (hs : s ∈ x.symbols) : s ∈ form.symbols := by
  have hform : ∀ t md, form ≠ .atom (.symbol t) md := by
    rintro t md rfl
    cases hx
  rw [symbols_eq_flatMap hform]
  exact List.mem_flatMap.mpr ⟨x, hx, hs⟩

end Value

/-! ## Environments that agree -/

theorem evalItems_congr_env {host : Host π} {env other : Env π} {items : List (Value π)}
    (h : ∀ x ∈ items, eval host other x = eval host env x) :
    evalItems host other items = evalItems host env items := by
  induction items with
  | nil => rfl
  | cons x xs ih =>
    rw [List.forall_mem_cons] at h
    rw [evalItems, evalItems, h.1, ih h.2]

/-- The last step of evaluation asks the environment for the symbol that the form is, and for nothing
else. -/
theorem Value.assemble_congr_env (host : Host π) {env other : Env π} {form : Value π}
    (h : ∀ s ∈ form.symbols, other.find? s = env.find? s) :
    form.assemble host other = form.assemble host env := by
  cases form with
  | atom a md =>
    cases a with
    | symbol s =>
      funext values
      rw [assemble, assemble, evalAtom, evalAtom, resolve, resolve, h s List.mem_cons_self]
    | _ => rfl
  | _ => rfl

/-- Evaluation depends on what the symbols of the form are bound to. -/
theorem eval_congr_env (host : Host π) {env other : Env π} {form : Value π}
    (h : ∀ s ∈ form.symbols, other.find? s = env.find? s) :
    eval host other form = eval host env form := by
  induction form using Value.induction_subforms with
  | step form ih =>
    have hitems : evalItems host other form.subforms = evalItems host env form.subforms := by
      refine evalItems_congr_env fun x hx => ih x hx fun s hs => ?_
      exact h s (Value.mem_symbols_of_mem_subforms hx hs)
    rw [eval_eq, eval_eq, hitems, Value.assemble_congr_env host h]

/-- If each symbol that occurs in a form is bound to the same function in two environments or is bound
in neither, then the form has the same value in both or fails with the same error, and the gauge is
left the same. This holds for all functions of the embedding program, at every depth and under every
limit. -/
theorem eval_of_agreement (host : Host π) {env other : Env π} {form : Value π}
    (hagree : ∀ s ∈ form.symbols,
      (∃ f, env.find? s = some f ∧ other.find? s = some f) ∨
        (env.find? s = none ∧ other.find? s = none))
    (gauge : Gauge) : (eval host other form).run gauge = (eval host env form).run gauge := by
  have hsame : ∀ s ∈ form.symbols, other.find? s = env.find? s := by
    intro s hs
    rcases hagree s hs with ⟨f, henv, hother⟩ | ⟨henv, hother⟩
    · rw [henv, hother]
    · rw [henv, hother]
  rw [eval_congr_env host hsame]

/-- A quotation and a symbol that is bound nowhere. In the one environment `quote` is bound in the root,
in the other one it is bound anew in a second frame, and a third frame has been closed. The symbol `x`
means different functions in the two, but occurs in metadata only. -/
theorem eval_of_agreement_quotation :
    let quote : Symbol := ⟨"quote"⟩
    let x : Symbol := ⟨"x"⟩
    let y : Symbol := ⟨"y"⟩
    let f (code : Bool) : Procedure Bool := ⟨quote, .host code⟩
    let env : Env Bool := Env.empty.run [.bind quote (f true), .bind x (f true)]
    let other : Env Bool := Env.empty.run
      [.defineArithmetic, .bind quote (f false), .push, .bind quote (f true), .bind x (f false),
        .push, .bind quote (f false), .pop]
    let host : Host Bool := fun code args gauge =>
      .ok (.vector (.bool code :: args) none) { gauge with limit := 4 }
    let form : Value Bool :=
      .vector [.sugar quote (.atom (.int 1) (some (.symbol x))) none none, .symbol y] none
    form.symbols = [quote, y] ∧ env.find? x ≠ other.find? x ∧
      env.find? quote = some (f true) ∧ other.find? quote = some (f true) ∧
      env.find? y = none ∧ other.find? y = none ∧
      (eval host other form).run ⟨1, 6⟩ = (eval host env form).run ⟨1, 6⟩ := by
  intro quote x y f env other host form
  have hfind : ∀ (changes : List (EnvChange Bool)) (s : Symbol),
      (Env.empty.run changes).find? s = Stack.find? (changes.foldl Stack.step [∅]) s := by
    intro changes s
    obtain ⟨hstacked, hstack⟩ := Env.stacked_empty.run changes
    rw [hstacked.find?_eq, hstack, Env.stack_empty]
  have hquote : env.find? quote = some (f true) ∧ other.find? quote = some (f true) :=
    ⟨(hfind _ quote).trans (by decide), (hfind _ quote).trans (by decide)⟩
  have hy : env.find? y = none ∧ other.find? y = none :=
    ⟨(hfind _ y).trans (by decide), (hfind _ y).trans (by decide)⟩
  have hx : env.find? x ≠ other.find? x := by
    rw [show env.find? x = _ from hfind _ x, show other.find? x = _ from hfind _ x]
    decide
  have hsymbols : form.symbols = [quote, y] := rfl
  refine ⟨hsymbols, hx, hquote.1, hquote.2, hy.1, hy.2, eval_of_agreement host ?_ ⟨1, 6⟩⟩
  rw [hsymbols, List.forall_mem_cons, List.forall_mem_singleton]
  exact ⟨.inl ⟨f true, hquote⟩, .inr hy⟩

end MiniLisp
