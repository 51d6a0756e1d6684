import Mathlib.Data.List.Induction
import MiniLisp.Proofs.Environments

/-!
# Numbers of frames that are closed

Whoever opens a frame gets its number, and may keep the number after the frame is closed. A number is
a place in the array of frames and nothing more: the next frame that is opened at the same depth has
the same number. So the number of a closed frame does not stay unknown for good
(`Env.findFrom?_reopened`). It is unknown until a frame that has the number again is open.

Frames are told apart by the changes that opened them. `EnvChange.openings` says which of them are
open, without looking at an environment.

Results:
1. `Env.map_numberOf_openings`: the open frames have the numbers from one to that of the current frame.
2. `EnvChange.mem_openings_take`: a frame that is open has been open since it was opened.
3. `Env.findFrom?_closed`: in a closed frame nothing is bound, unless its number is that of an open
   frame that was opened after it.
-/

namespace MiniLisp

variable {π : Type}

/-! ## Definitions -/

namespace EnvChange

/-- The open frames after one change more, which is the change number `time`. The root stays open, but
it is not listed. -/
def track (times : List Nat) : EnvChange π × Nat → List Nat
  | (.push, time) => time :: times
  | (.pop, _) => times.tail
  | (.bind _ _, _) => times
  | (.define _ _, _) => times
  | (.defineArithmetic, _) => times

/-- Which changes opened the frames that are open after all of them, the newest first. -/
def openings (changes : List (EnvChange π)) : List Nat := changes.zipIdx.foldl track []

end EnvChange

/-- The number that was given to the frame which the change number `time` opened. -/
def Env.numberOf (start : Env π) (changes : List (EnvChange π)) (time : Nat) : Nat :=
  (start.run (changes.take (time + 1))).current

/-! ## Open frames -/

namespace EnvChange

theorem openings_concat (changes : List (EnvChange π)) (change : EnvChange π) :
    openings (changes ++ [change]) = track (openings changes) (change, changes.length) := by
  simp [openings, List.zipIdx_append]

/-- A change opens at most one frame, and it is the one that is named for the change. -/
theorem mem_track {times : List Nat} {change : EnvChange π} {time t : Nat}
    (h : t ∈ track times (change, time)) : (t = time ∧ change = .push) ∨ t ∈ times := by
  cases change with
  | push =>
    rcases List.mem_cons.mp h with rfl | h
    · exact .inl ⟨rfl, rfl⟩
    · exact .inr h
  | pop => exact .inr (List.mem_of_mem_tail h)
  | _ => exact .inr h

theorem getElem?_of_mem_openings {changes : List (EnvChange π)} {time : Nat}
    (h : time ∈ openings changes) : changes[time]? = some .push := by
  induction changes using List.reverseRecOn with
  | nil => cases h
  | append_singleton changes change ih =>
    rw [openings_concat] at h
    rcases mem_track h with ⟨rfl, rfl⟩ | h
    · simp
    · have hpush := ih h
      rwa [List.getElem?_append_left (List.getElem?_eq_some_iff.mp hpush).1]

theorem lt_length_of_mem_openings {changes : List (EnvChange π)} {time : Nat}
    (h : time ∈ openings changes) : time < changes.length :=
  (List.getElem?_eq_some_iff.mp (getElem?_of_mem_openings h)).1

/-- A frame that is open was open at all times since it was opened. -/
theorem mem_openings_take {changes : List (EnvChange π)} {time k : Nat}
    (h : time ∈ openings changes) (hk : time < k) : time ∈ openings (changes.take k) := by
  induction changes using List.reverseRecOn with
  | nil => cases h
  | append_singleton changes change ih =>
    rcases Nat.lt_or_ge changes.length k with hall | hpart
    · have hlength : (changes ++ [change]).length ≤ k := by
        rw [List.length_append]
        exact hall
      rwa [List.take_of_length_le hlength]
    · rw [List.take_append_of_le_length hpart]
      rw [openings_concat] at h
      rcases mem_track h with ⟨rfl, _⟩ | h
      · exact absurd hk (Nat.not_lt_of_le hpart)
      · exact ih h

end EnvChange

/-! ## Their numbers -/

namespace Env

open EnvChange

theorem run_concat (start : Env π) (changes : List (EnvChange π)) (change : EnvChange π) :
    start.run (changes ++ [change]) = (start.run changes).step change := by
  simp [run]

theorem current_push {env : Env π} (h : env.Stacked) : env.push.current = env.current + 1 :=
  h.size_eq

theorem current_pop {env : Env π} (h : env.Stacked) :
    (env.step .pop).current = env.current - 1 := by
  rw [step]
  obtain ⟨hcurrent, hpop⟩ | ⟨parent, _, hcurrent, hpop⟩ := h.pop?_cases
  · rw [hpop, Option.getD_none, hcurrent]
  · rw [hpop, Option.getD_some, hcurrent]
    rfl

theorem current_define (env : Env π) (name : String) (body : Callable π) :
    (env.define name body).current = env.current := rfl

theorem current_defineArithmetic (env : Env π) : env.defineArithmetic.current = env.current := by
  simp only [defineArithmetic, List.foldl_cons, List.foldl_nil, current_define]

/-- Later changes do not change the number that a frame was given. -/
theorem numberOf_take (start : Env π) (changes : List (EnvChange π)) {time k : Nat}
    (h : time < k) : start.numberOf (changes.take k) time = start.numberOf changes time := by
  rw [numberOf, numberOf, List.take_take, Nat.min_eq_left h]

theorem map_numberOf_concat (start : Env π) (changes : List (EnvChange π)) (change : EnvChange π) :
    (openings changes).map (start.numberOf (changes ++ [change])) =
      (openings changes).map (start.numberOf changes) := by
  refine List.map_congr_left fun time htime => ?_
  have hnumber := start.numberOf_take (changes ++ [change]) (lt_length_of_mem_openings htime)
  rwa [List.take_left, eq_comm] at hnumber

/-- The newest open frame is the current one, and the numbers of the others go down from there. -/
theorem map_numberOf_openings {start : Env π} (hstart : start.Stacked) (hroot : start.current = 0)
    (changes : List (EnvChange π)) :
    (openings changes).map (start.numberOf changes) =
      (List.range' 1 (start.run changes).current).reverse := by
  induction changes using List.reverseRecOn with
  | nil =>
    show [] = (List.range' 1 start.current).reverse
    rw [hroot]
    rfl
  | append_singleton changes change ih =>
    have hstacked := (hstart.run changes).1
    rw [openings_concat, run_concat]
    cases change with
    | push =>
      have hnew : start.numberOf (changes ++ [.push]) changes.length =
          (start.run changes).current + 1 := by
        rw [numberOf, List.take_of_length_le (by simp), run_concat]
        exact current_push hstacked
      rw [track, List.map_cons, map_numberOf_concat, ih, hnew, step, current_push hstacked,
        List.range'_1_concat, List.reverse_concat, Nat.add_comm]
    | pop =>
      rw [track, List.map_tail, map_numberOf_concat, ih, current_pop hstacked, List.tail_reverse]
      cases (start.run changes).current with
      | zero => rfl
      | succ k => rw [List.range'_1_concat, List.dropLast_concat, Nat.add_sub_cancel]
    | bind symbol f =>
      rw [track, map_numberOf_concat, ih]
      rfl
    | define name body => rw [track, map_numberOf_concat, ih, step, current_define]
    | defineArithmetic => rw [track, map_numberOf_concat, ih, step, current_defineArithmetic]

theorem mem_map_numberOf_iff {start : Env π} (hstart : start.Stacked) (hroot : start.current = 0)
    (changes : List (EnvChange π)) {number : Nat} :
    (∃ time ∈ openings changes, start.numberOf changes time = number) ↔
      1 ≤ number ∧ number ≤ (start.run changes).current := by
  rw [← List.mem_map, map_numberOf_openings hstart hroot, List.mem_reverse, List.mem_range'_1]
  omega

/-- A new frame is given the number after that of the current frame. -/
theorem numberOf_of_push {start : Env π} (hstart : start.Stacked) {changes : List (EnvChange π)}
    {time : Nat} (h : changes[time]? = some .push) :
    start.numberOf changes time = (start.run (changes.take time)).current + 1 := by
  rw [numberOf, List.take_add_one, h, Option.toList_some, run_concat]
  exact current_push (hstart.run _).1

/-! ## Closed frames -/

/-- From a frame that was opened and is closed, no symbol can be looked up, unless a frame that was
opened later and is still open was given the same number. -/
theorem findFrom?_closed {start : Env π} (hstart : start = empty ∨ start = standard)
    (changes : List (EnvChange π)) {time : Nat} (hpush : changes[time]? = some .push)
    (hclosed : time ∉ openings changes) :
    (∀ symbol, (start.run changes).findFrom? (start.numberOf changes time) symbol = none) ∨
      ∃ later ∈ openings changes, time < later ∧ changes[later]? = some .push ∧
        start.numberOf changes later = start.numberOf changes time := by
  obtain ⟨hstacked, hroot⟩ : start.Stacked ∧ start.current = 0 := by
    rcases hstart with rfl | rfl
    · exact ⟨stacked_empty, rfl⟩
    · exact ⟨(stacked_empty.step .defineArithmetic).1, rfl⟩
  have hrun := (hstacked.run changes).1
  have hnumber := numberOf_of_push hstacked hpush
  rcases Nat.lt_or_ge (start.run changes).current (start.numberOf changes time) with hgone | hknown
  · refine .inl fun symbol => ?_
    rw [hrun.findFrom?_eq, hrun.depth_eq, if_neg (by omega)]
  · obtain ⟨later, hopen, hsame⟩ :=
      (mem_map_numberOf_iff hstacked hroot changes).mpr ⟨by omega, hknown⟩
    refine .inr ⟨later, hopen, ?_, getElem?_of_mem_openings hopen, hsame⟩
    by_contra hnot
    have hearlier : later < time := by
      have hne : later ≠ time := fun heq => hclosed (heq ▸ hopen)
      omega
    -- A frame that was open before has a smaller number than the new one was given.
    have hbelow := (mem_map_numberOf_iff hstacked hroot (changes.take time)).mp
      ⟨later, mem_openings_take hopen hearlier, start.numberOf_take changes hearlier⟩
    omega

/-- A frame that was opened twice at the same depth and closed twice. -/
theorem findFrom?_closed_twice :
    let plus : Symbol := ⟨"+"⟩
    let shadow : Procedure Empty := ⟨⟨"shadow"⟩, .invalid⟩
    let changes : List (EnvChange Empty) :=
      [.push, .bind plus shadow, .pop, .push, .pop, .bind plus shadow]
    changes[0]? = some .push ∧ 0 ∉ openings changes ∧
      ∀ symbol, (standard.run changes).findFrom? (standard.numberOf changes 0) symbol = none := by
  intro plus shadow changes
  have hclosed : 0 ∉ openings changes := by decide
  refine ⟨rfl, hclosed, ?_⟩
  refine (findFrom?_closed (.inr rfl) changes rfl hclosed).resolve_right ?_
  rintro ⟨later, hopen, _⟩
  cases hopen

/-- The first frame is closed and a second one is opened in its place. What is bound in the second
frame is found under the number that was given to the first. -/
theorem findFrom?_reopened :
    let x : Symbol := ⟨"x"⟩
    let f : Procedure Unit := ⟨x, .host ()⟩
    let changes : List (EnvChange Unit) := [.push, .pop, .push, .bind x f]
    changes[0]? = some .push ∧ 0 ∉ openings (changes.take 2) ∧ 0 ∉ openings changes ∧
      (empty.run changes).findFrom? (empty.numberOf changes 0) x = some f := by
  intro x f changes
  refine ⟨rfl, by decide, by decide, ?_⟩
  obtain ⟨hstacked, hstack⟩ := stacked_empty.run changes
  rw [hstacked.findFrom?_eq, hstacked.depth_eq, hstack]
  rfl

end Env

end MiniLisp
