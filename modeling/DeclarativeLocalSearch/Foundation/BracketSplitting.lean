import Mathlib.Algebra.BigOperators.Group.List.Basic
import Mathlib.Algebra.Order.Ring.Int

namespace BracketSplitting

variable {α : Type}

structure Delimiters (α : Type) where
  opening : α
  closing : α
  separator : α
  opening_ne_closing : opening ≠ closing
  separator_ne_opening : separator ≠ opening
  separator_ne_closing : separator ≠ closing

namespace Delimiters

variable [DecidableEq α] (D : Delimiters α)

def nest (x : α) (nestings : ℤ) : ℤ :=
  if x = D.opening then nestings + 1 else if x = D.closing then nestings - 1 else nestings

def splitLoop : List α → ℤ → List α → List (List α)
  | [], _, current => [current]
  | x :: xs, nestings, current =>
    if x = D.separator ∧ D.nest x nestings = 0 then current :: splitLoop xs (D.nest x nestings) []
    else splitLoop xs (D.nest x nestings) (current ++ [x])

def split (xs : List α) : List (List α) := D.splitLoop xs 0 []

omit [DecidableEq α] in
def join : List (List α) → List α
  | [] => []
  | [a] => a
  | a :: b :: l => a ++ D.separator :: join (b :: l)

def apply (f : List α) (args : List (List α)) : List α := f ++ D.opening :: (D.join args ++ [D.closing])

def Plain (t : List α) : Prop := D.opening ∉ t ∧ D.closing ∉ t ∧ D.separator ∉ t

inductive IsTerm : List α → Prop
  | leaf {t} : D.Plain t → IsTerm t
  | apply {f args} : D.Plain f → (∀ a ∈ args, IsTerm a) → IsTerm (D.apply f args)

-- the loop passes over the text without splitting it, at any depth
def Closed (t : List α) : Prop :=
  ∀ rest nestings current, 0 ≤ nestings →
    D.splitLoop (t ++ rest) nestings current = D.splitLoop rest nestings (current ++ t)

end Delimiters

namespace Delimiters

variable [DecidableEq α] {D : Delimiters α} {t f : List α} {args : List (List α)}

@[simp]
theorem nest_opening (n : ℤ) : D.nest D.opening n = n + 1 := by simp [nest]

@[simp]
theorem nest_closing (n : ℤ) : D.nest D.closing n = n - 1 := by simp [nest, D.opening_ne_closing.symm]

@[simp]
theorem nest_separator (n : ℤ) : D.nest D.separator n = n := by
  simp [nest, D.separator_ne_opening, D.separator_ne_closing]

theorem splitLoop_cons {x : α} (h : x ≠ D.separator) (xs : List α) (n : ℤ) (current : List α) :
    D.splitLoop (x :: xs) n current = D.splitLoop xs (D.nest x n) (current ++ [x]) := by
  rw [splitLoop, if_neg fun hx => h hx.1]

theorem splitLoop_separator (xs : List α) (n : ℤ) (current : List α) :
    D.splitLoop (D.separator :: xs) n current =
      if n = 0 then current :: D.split xs else D.splitLoop xs n (current ++ [D.separator]) := by
  rw [splitLoop, nest_separator]
  by_cases hn : n = 0
  · simp [hn, split]
  · simp [hn]

theorem Plain.closed (h : D.Plain t) : D.Closed t := by
  obtain ⟨hopening, hclosing, hseparator⟩ := h
  intro rest n current hn
  induction t generalizing current with
  | nil => simp
  | cons x t ih =>
    rw [List.mem_cons, not_or] at hopening hclosing hseparator
    have hnest : D.nest x n = n := by
      rw [nest, if_neg (Ne.symm hopening.1), if_neg (Ne.symm hclosing.1)]
    rw [List.cons_append, splitLoop_cons (Ne.symm hseparator.1), hnest,
      ih hopening.2 hclosing.2 hseparator.2, List.append_assoc, List.singleton_append]

theorem splitLoop_join (h : ∀ a ∈ args, D.Closed a) (rest : List α) {n : ℤ} (hn : 0 < n) (current : List α) :
    D.splitLoop (D.join args ++ rest) n current = D.splitLoop rest n (current ++ D.join args) := by
  induction args generalizing current with
  | nil => simp [join]
  | cons a l ih =>
    have ha : D.Closed a := h a List.mem_cons_self
    cases l with
    | nil => exact ha rest n current hn.le
    | cons b l =>
      rw [join, List.append_assoc, List.cons_append, ha _ _ _ hn.le, splitLoop_separator, if_neg hn.ne',
        ih fun c hc => h c (List.mem_cons_of_mem _ hc)]
      simp

theorem Closed.apply (hf : D.Plain f) (hargs : ∀ a ∈ args, D.Closed a) : D.Closed (D.apply f args) := by
  intro rest n current hn
  have htext : D.apply f args ++ rest = f ++ (D.opening :: (D.join args ++ (D.closing :: rest))) := by
    simp [Delimiters.apply]
  rw [htext, hf.closed _ _ _ hn, splitLoop_cons D.separator_ne_opening.symm, nest_opening,
    splitLoop_join hargs _ (by omega), splitLoop_cons D.separator_ne_closing.symm, nest_closing,
    add_sub_cancel_right]
  simp [Delimiters.apply]

theorem IsTerm.closed (h : D.IsTerm t) : D.Closed t := by
  induction h with
  | leaf hplain => exact hplain.closed
  | apply hf _ ih => exact Closed.apply hf ih

theorem split_join (h : ∀ a ∈ args, D.Closed a) (hne : args ≠ []) : D.split (D.join args) = args := by
  induction args with
  | nil => exact absurd rfl hne
  | cons a l ih =>
    have ha : D.Closed a := h a List.mem_cons_self
    cases l with
    | nil =>
      have hloop := ha [] 0 [] le_rfl
      rw [List.append_nil, List.nil_append] at hloop
      rw [join, split, hloop, splitLoop]
    | cons b l =>
      rw [join, split, ha _ _ _ le_rfl, splitLoop_separator, if_pos rfl, List.nil_append,
        ih (fun c hc => h c (List.mem_cons_of_mem _ hc)) (List.cons_ne_nil _ _)]

-- the weight of the parts, a bound for a recursion over them
def weight (parts : List (List α)) : ℕ := (parts.map fun part => part.length + 1).sum

theorem weight_splitLoop (xs : List α) (n : ℤ) (current : List α) :
    weight (D.splitLoop xs n current) = current.length + xs.length + 1 := by
  induction xs generalizing n current with
  | nil => simp [splitLoop, weight]
  | cons x xs ih =>
    rw [splitLoop]
    split
    · rw [weight, List.map_cons, List.sum_cons, ← weight, ih]
      simp only [List.length_nil, List.length_cons]
      omega
    · rw [ih]
      simp only [List.length_append, List.length_cons, List.length_nil]
      omega

theorem weight_split (xs : List α) : weight (D.split xs) = xs.length + 1 := by
  rw [split, weight_splitLoop]
  simp

theorem takeWhile_apply (hf : D.Plain f) : (D.apply f args).takeWhile (· ≠ D.opening) = f := by
  have hall : ∀ x ∈ f, (decide (x ≠ D.opening)) = true := fun x hx =>
    decide_eq_true fun heq => hf.1 (heq ▸ hx)
  rw [apply, List.takeWhile_append_of_pos hall]
  simp

end Delimiters

end BracketSplitting
