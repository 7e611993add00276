import Mathlib.Data.Prod.Lex
import Mathlib.Data.String.Basic
import DeclarativeLocalSearch.Structure.Compare

namespace ElementOrder

inductive Double where
  | nan
  | negInfinity
  | value (q : ℚ)
  | posInfinity
  deriving DecidableEq

namespace Double

def less : Double → Double → Bool
  | .value q, .value r => q < r
  | .negInfinity, .value _ => true
  | .negInfinity, .posInfinity => true
  | .value _, .posInfinity => true
  | _, _ => false

def isInt : Double → Bool
  | .value q => q.den = 1 && -2 ^ 31 ≤ q.num && q.num < 2 ^ 31
  | _ => false

theorem less_asymm {d e : Double} (h : d.less e = true) : e.less d = false := by
  cases d <;> cases e <;> simp_all [less, le_of_lt]

theorem less_trans {d e f : Double} (hde : d.less e = true) (hef : e.less f = true) : d.less f = true := by
  cases d <;> cases e <;> cases f <;> simp_all [less]
  exact hde.trans hef

theorem less_total {d e : Double} (hd : d ≠ .nan) (he : e ≠ .nan) (hde : d.less e = false) (hed : e.less d = false) :
    d = e := by
  cases d <;> cases e <;> simp_all [less]
  exact le_antisymm hed hde

@[simp]
theorem nan_less (d : Double) : Double.nan.less d = false := by cases d <;> rfl

@[simp]
theorem less_nan (d : Double) : d.less .nan = false := by cases d <;> rfl

end Double

abbrev Int32 := {n : ℤ // -2 ^ 31 ≤ n ∧ n < 2 ^ 31}

structure VSort where
  address : ℕ
  name : String
  deriving DecidableEq

structure Function where
  address : ℕ
  name : String
  insorts : List VSort
  outsort : VSort
  deriving DecidableEq

namespace Function

def sorts (f : Function) : List VSort := f.insorts ++ [f.outsort]

def arity (f : Function) : ℕ := f.insorts.length

-- the names are all that the order looks at, operator< of sorts compares their names
def names (f : Function) : Lex (String × Structure.Tuple String) := toLex (f.name, ⟨f.sorts.map VSort.name⟩)

theorem names_eq_iff {f g : Function} :
    f.names = g.names ↔ f.name = g.name ∧ f.sorts.map VSort.name = g.sorts.map VSort.name := by
  simp [names]

theorem arity_eq {f g : Function} (h : f.names = g.names) : f.arity = g.arity := by
  have hlength := congrArg List.length (names_eq_iff.mp h).2
  simpa [sorts, arity] using hlength

end Function

inductive DomainElement where
  | int (value : Int32)
  | double (value : Double) (not_int : value.isInt = false)
  | string (value : String)
  | compound (function : Function) (arguments : List DomainElement)

mutual

def less : DomainElement → DomainElement → Bool
  | .int m, .int n => m.1 < n.1
  | .int m, .double e _ => Double.less (.value m.1) e
  | .int _, .string _ => true
  | .int _, .compound _ _ => true
  | .double d _, .int n => Double.less d (.value n.1)
  | .double d _, .double e _ => Double.less d e
  | .double _ _, .string _ => true
  | .double _ _, .compound _ _ => true
  | .string _, .int _ => false
  | .string _, .double _ _ => false
  | .string s, .string t => s < t
  | .string _, .compound _ _ => true
  | .compound _ _, .int _ => false
  | .compound _ _, .double _ _ => false
  | .compound _ _, .string _ => false
  | .compound f as, .compound g bs =>
    if f.name < g.name then true
    else if f.name > g.name then false
    else if Structure.Compare.less (f.sorts.map VSort.name) (g.sorts.map VSort.name) then true
    else if Structure.Compare.less (g.sorts.map VSort.name) (f.sorts.map VSort.name) then false
    else lessElements as bs
termination_by d e => sizeOf d + sizeOf e

def lessElements : List DomainElement → List DomainElement → Bool
  | a :: as, b :: bs =>
    if less a b then true
    else if less b a then false
    else lessElements as bs
  | _, _ => false
termination_by as bs => sizeOf as + sizeOf bs

end

def lessTuple (t1 t2 : List DomainElement) : Bool :=
  if t1.length < t2.length then true
  else if t1.length > t2.length then false
  else lessElements t1 t2

-- the elements that a factory has made
structure Elements where
  elements : Set DomainElement
  arguments_mem : ∀ {f as}, .compound f as ∈ elements → ∀ a ∈ as, a ∈ elements
  arguments_length : ∀ {f as}, .compound f as ∈ elements → as.length = f.arity

-- exactly one of two distinct ones is less than the other
structure Ordered {α : Type} (elements : Set α) (less : α → α → Bool) : Prop where
  irrefl : ∀ x ∈ elements, less x x = false
  trans : ∀ x ∈ elements, ∀ y ∈ elements, ∀ z ∈ elements, less x y = true → less y z = true → less x z = true
  total : ∀ x ∈ elements, ∀ y ∈ elements, x ≠ y → less x y = !less y x

namespace DomainElement

def number? : DomainElement → Option Double
  | .int n => some (.value n.1)
  | .double d _ => some d
  | _ => none

@[elab_as_elim]
theorem induction {P : DomainElement → Prop} (int : ∀ n, P (.int n)) (double : ∀ d h, P (.double d h))
    (string : ∀ s, P (.string s)) (compound : ∀ f as, (∀ a ∈ as, P a) → P (.compound f as)) : ∀ d, P d
  | .int n => int n
  | .double d h => double d h
  | .string s => string s
  | .compound f as => compound f as fun a _ => induction int double string compound a
termination_by d => sizeOf d

theorem number?_inj {x y : DomainElement} {d : Double} (hx : x.number? = some d) (hy : y.number? = some d) :
    x = y := by
  have hint : ∀ n : Int32, Double.isInt (.value n.1) = true := by
    intro n
    have hle := n.2.1
    have hlt := n.2.2
    simp only [Double.isInt, Rat.den_intCast, Rat.num_intCast, Bool.and_eq_true]
    exact ⟨⟨rfl, decide_eq_true hle⟩, decide_eq_true hlt⟩
  cases x <;> cases y <;> simp only [number?, Option.some.injEq, reduceCtorEq] at hx hy
  case int.int m n =>
    have hcast : (m.1 : ℚ) = n.1 := by simpa using hx.trans hy.symm
    exact congrArg DomainElement.int (Subtype.ext (Int.cast_injective hcast))
  case int.double m e he => exact absurd (hint m) (by rw [hx, ← hy, he]; decide)
  case double.int e he m => exact absurd (hint m) (by rw [hy, ← hx, he]; decide)
  case double.double e he e' he' =>
    subst hx hy
    rfl

end DomainElement

section Less

variable {x y : DomainElement} {d : Double}

theorem less_number (hx : x.number? = some d) : less x y = true ↔
    y.number? = none ∨ ∃ e, y.number? = some e ∧ d.less e = true := by
  cases x <;> cases y <;> simp only [DomainElement.number?, Option.some.injEq, reduceCtorEq] at hx <;> subst hx <;>
    simp [less, DomainElement.number?, Double.less]

theorem less_string {s : String} : less (.string s) y = true ↔
    (∃ t, y = .string t ∧ s < t) ∨ ∃ g bs, y = .compound g bs := by
  cases y <;> simp [less]

theorem less_compound {f : Function} {as : List DomainElement} : less (.compound f as) y = true ↔
    ∃ g bs, y = .compound g bs ∧ (f.names < g.names ∨ f.names = g.names ∧ lessElements as bs = true) := by
  cases y with
  | int _ => simp [less]
  | double _ _ => simp [less]
  | string _ => simp [less]
  | compound g bs =>
    have hexists : (∃ g' bs', DomainElement.compound g bs = .compound g' bs' ∧
        (f.names < g'.names ∨ f.names = g'.names ∧ lessElements as bs' = true)) ↔
        f.names < g.names ∨ f.names = g.names ∧ lessElements as bs = true := by
      simp only [DomainElement.compound.injEq]
      exact ⟨fun ⟨_, _, ⟨rfl, rfl⟩, h⟩ => h, fun h => ⟨g, bs, ⟨rfl, rfl⟩, h⟩⟩
    have hlt : ∀ f g : Function, f.names < g.names ↔
        f.name < g.name ∨ f.name = g.name ∧
          Structure.Compare.less (f.sorts.map VSort.name) (g.sorts.map VSort.name) = true := by
      intro f g
      exact Prod.Lex.toLex_lt_toLex
    rw [hexists, less]
    rcases lt_trichotomy f.names g.names with h | h | h
    · rcases (hlt f g).mp h with hname | ⟨hname, hsorts⟩
      · simp [h, hname]
      · simp [h, hname, hsorts]
    · obtain ⟨hname, hsorts⟩ := Function.names_eq_iff.mp h
      simp [h, hname, hsorts, Structure.Compare.less_irrefl]
    · have hnot : ¬ f.names < g.names := h.not_gt
      have hne : f.names ≠ g.names := h.ne'
      rcases (hlt g f).mp h with hname | ⟨hname, hsorts⟩
      · simp [hnot, hne, hname, hname.not_gt]
      · have hsorts' : Structure.Compare.less (f.sorts.map VSort.name) (g.sorts.map VSort.name) = false := by
          rw [← Bool.not_eq_true]
          exact fun h' => hnot ((hlt f g).mpr (Or.inr ⟨hname.symm, h'⟩))
        simp [hnot, hne, hname, hsorts, hsorts']

end Less

section Lists

variable {as bs cs : List DomainElement}

theorem lessElements_cons_iff {a b : DomainElement} : lessElements (a :: as) (b :: bs) = true ↔
    less a b = true ∨ less a b = false ∧ less b a = false ∧ lessElements as bs = true := by
  rw [lessElements]
  cases less a b <;> cases less b a <;> simp

theorem lessElements_asymm (h : ∀ a ∈ as, ∀ b, less a b = true → less b a = false)
    (hless : lessElements as bs = true) : lessElements bs as = false := by
  induction as generalizing bs with
  | nil => simp [lessElements] at hless
  | cons a as ih =>
    cases bs with
    | nil => simp [lessElements] at hless
    | cons b bs =>
      rcases lessElements_cons_iff.mp hless with hab | ⟨hab, hba, htail⟩
      · have hba := h a List.mem_cons_self b hab
        simp [lessElements, hab, hba]
      · simpa [lessElements, hab, hba] using ih (fun a ha => h a (List.mem_cons_of_mem _ ha)) htail

theorem lessElements_total (hlength : as.length = bs.length)
    (h : ∀ a ∈ as, ∀ b ∈ bs, less a b = false → less b a = false → a = b)
    (hab : lessElements as bs = false) (hba : lessElements bs as = false) : as = bs := by
  induction as generalizing bs with
  | nil => exact (List.eq_nil_of_length_eq_zero hlength.symm).symm
  | cons a as ih =>
    cases bs with
    | nil => cases hlength
    | cons b bs =>
      rw [lessElements] at hab hba
      split_ifs at hab hba with h1 h2
      obtain rfl := h a List.mem_cons_self b List.mem_cons_self (by simpa using h1) (by simpa using h2)
      have htail := ih (Nat.succ.inj hlength)
        (fun a ha b hb => h a (List.mem_cons_of_mem _ ha) b (List.mem_cons_of_mem _ hb)) hab hba
      rw [htail]

theorem lessElements_trans (hirrefl : ∀ a ∈ as, less a a = false)
    (h : ∀ a ∈ as, ∀ b ∈ bs, ∀ c ∈ cs, less a b = true → less b c = true → less a c = true)
    (hab_eq : ∀ a ∈ as, ∀ b ∈ bs, less a b = false → less b a = false → a = b)
    (hbc_eq : ∀ b ∈ bs, ∀ c ∈ cs, less b c = false → less c b = false → b = c)
    (hab : lessElements as bs = true) (hbc : lessElements bs cs = true) : lessElements as cs = true := by
  induction as generalizing bs cs with
  | nil => simp [lessElements] at hab
  | cons a as ih =>
    cases bs with
    | nil => simp [lessElements] at hab
    | cons b bs =>
      cases cs with
      | nil => simp [lessElements] at hbc
      | cons c cs =>
        have ha : a ∈ a :: as := List.mem_cons_self
        have hb : b ∈ b :: bs := List.mem_cons_self
        have hc : c ∈ c :: cs := List.mem_cons_self
        rw [lessElements_cons_iff]
        rcases lessElements_cons_iff.mp hab with hab | ⟨hab, hba, htail⟩ <;>
          rcases lessElements_cons_iff.mp hbc with hbc | ⟨hbc, hcb, htail'⟩
        · exact Or.inl (h a ha b hb c hc hab hbc)
        · obtain rfl := hbc_eq b hb c hc hbc hcb
          exact Or.inl hab
        · obtain rfl := hab_eq a ha b hb hab hba
          exact Or.inl hbc
        · obtain rfl := hab_eq a ha b hb hab hba
          obtain rfl := hbc_eq a hb c hc hbc hcb
          refine Or.inr ⟨hbc, hbc, ih (fun a ha => hirrefl a (List.mem_cons_of_mem _ ha)) ?_ ?_ ?_ htail htail'⟩
          · exact fun a ha b hb c hc => h a (List.mem_cons_of_mem _ ha) b (List.mem_cons_of_mem _ hb) c
              (List.mem_cons_of_mem _ hc)
          · exact fun a ha b hb => hab_eq a (List.mem_cons_of_mem _ ha) b (List.mem_cons_of_mem _ hb)
          · exact fun b hb c hc => hbc_eq b (List.mem_cons_of_mem _ hb) c (List.mem_cons_of_mem _ hc)

end Lists

theorem less_asymm (x y : DomainElement) (h : less x y = true) : less y x = false := by
  have hnumber : ∀ {x y : DomainElement} {d : Double}, x.number? = some d → less x y = true → less y x = false := by
    intro x y d hx h
    rw [← Bool.not_eq_true]
    intro hyx
    rcases (less_number hx).mp h with hy | ⟨e, hy, hde⟩
    · cases y <;> cases x <;> simp_all [DomainElement.number?, less]
    · rcases (less_number hy).mp hyx with hx' | ⟨d', hx', hed⟩
      · rw [hx] at hx'
        cases hx'
      · obtain rfl := Option.some.inj (hx.symm.trans hx')
        rw [Double.less_asymm hde] at hed
        cases hed
  induction x using DomainElement.induction generalizing y with
  | int n => exact hnumber rfl h
  | double d hd => exact hnumber rfl h
  | string s =>
    rcases less_string.mp h with ⟨t, rfl, hst⟩ | ⟨g, bs, rfl⟩
    · rw [less]
      exact decide_eq_false hst.not_gt
    · rw [less]
  | compound f as ih =>
    obtain ⟨g, bs, rfl, hless⟩ := less_compound.mp h
    rw [← Bool.not_eq_true]
    intro hyx
    obtain ⟨f', as', heq, hless'⟩ := less_compound.mp hyx
    cases heq
    rcases hless with hlt | ⟨heq, hlt⟩ <;> rcases hless' with hlt' | ⟨heq', hlt'⟩
    · exact lt_asymm hlt hlt'
    · exact hlt.ne heq'.symm
    · exact hlt'.ne heq.symm
    · rw [lessElements_asymm ih hlt] at hlt'
      cases hlt'

theorem less_irrefl (x : DomainElement) : less x x = false := by
  rw [← Bool.not_eq_true]
  intro h
  exact Bool.false_ne_true ((less_asymm x x h).symm.trans h)

-- NaN beside another number, or equal arguments under two functions of one name over sorts of the same names
structure Separated (elements : Elements) : Prop where
  nan : ∀ x ∈ elements.elements, ∀ y ∈ elements.elements,
    x.number? = some .nan → y.number? ≠ none → x = y
  functions : ∀ f g as, .compound f as ∈ elements.elements → .compound g as ∈ elements.elements →
    f.name = g.name → f.sorts.map VSort.name = g.sorts.map VSort.name → f = g

section Separated

variable {elements : Elements} (separated : Separated elements)

include separated

theorem less_total (x : DomainElement) (hx : x ∈ elements.elements) (y : DomainElement)
    (hy : y ∈ elements.elements) (hxy : less x y = false) (hyx : less y x = false) : x = y := by
  have hnumber : ∀ {x y : DomainElement} {d : Double}, x ∈ elements.elements → y ∈ elements.elements →
      x.number? = some d → less x y = false → less y x = false → x = y := by
    intro x y d hx hy hd hxy hyx
    have hnot := (not_congr (less_number (y := y) hd)).mp (by simp [hxy])
    rw [not_or] at hnot
    obtain ⟨e, he⟩ := Option.ne_none_iff_exists'.mp hnot.1
    by_cases hdnan : d = .nan
    · exact separated.nan x hx y hy (hdnan ▸ hd) hnot.1
    · by_cases henan : e = .nan
      · exact (separated.nan y hy x hx (henan ▸ he) (by simp [hd])).symm
      · have hde : d.less e = false := by
          rw [← Bool.not_eq_true]
          exact fun h => hnot.2 ⟨e, he, h⟩
        have hed : e.less d = false := by
          rw [← Bool.not_eq_true]
          intro h
          rw [(less_number he).mpr (Or.inr ⟨d, hd, h⟩)] at hyx
          cases hyx
        exact DomainElement.number?_inj hd (Double.less_total hdnan henan hde hed ▸ he)
  induction x using DomainElement.induction generalizing y with
  | int n => exact hnumber hx hy rfl hxy hyx
  | double d hd => exact hnumber hx hy rfl hxy hyx
  | string s =>
    cases y with
    | int n => exact (hnumber hy hx rfl hyx hxy).symm
    | double d hd => exact (hnumber hy hx rfl hyx hxy).symm
    | string t =>
      simp only [less, decide_eq_false_iff_not, not_lt] at hxy hyx
      rw [le_antisymm hyx hxy]
    | compound g bs => simp [less] at hxy
  | compound f as ih =>
    cases y with
    | int n => exact (hnumber hy hx rfl hyx hxy).symm
    | double d hd => exact (hnumber hy hx rfl hyx hxy).symm
    | string t => simp [less] at hyx
    | compound g bs =>
      have hfg : ¬ less (.compound f as) (.compound g bs) = true := by simp [hxy]
      have hgf : ¬ less (.compound g bs) (.compound f as) = true := by simp [hyx]
      rw [less_compound] at hfg hgf
      have hle : ¬ f.names < g.names := fun h => hfg ⟨g, bs, rfl, Or.inl h⟩
      have hge : ¬ g.names < f.names := fun h => hgf ⟨f, as, rfl, Or.inl h⟩
      have hnames : f.names = g.names := le_antisymm (not_lt.mp hge) (not_lt.mp hle)
      have hab : lessElements as bs = false := by
        rw [← Bool.not_eq_true]
        exact fun h => hfg ⟨g, bs, rfl, Or.inr ⟨hnames, h⟩⟩
      have hba : lessElements bs as = false := by
        rw [← Bool.not_eq_true]
        exact fun h => hgf ⟨f, as, rfl, Or.inr ⟨hnames.symm, h⟩⟩
      have hlength : as.length = bs.length :=
        (elements.arguments_length hx).trans ((Function.arity_eq hnames).trans (elements.arguments_length hy).symm)
      obtain rfl := lessElements_total hlength (fun a ha b hb => ih a ha (elements.arguments_mem hx a ha) b
        (elements.arguments_mem hy b hb)) hab hba
      obtain ⟨hname, hsorts⟩ := Function.names_eq_iff.mp hnames
      rw [separated.functions f g as hx hy hname hsorts]

theorem less_trans (x : DomainElement) (hx : x ∈ elements.elements) (y : DomainElement)
    (hy : y ∈ elements.elements) (z : DomainElement) (hz : z ∈ elements.elements) (hxy : less x y = true)
    (hyz : less y z = true) : less x z = true := by
  -- a number is below everything that is none, and nothing else is below a number
  have hnumber : ∀ {x y z : DomainElement} {d : Double}, x.number? = some d → less x y = true → less y z = true →
      less x z = true := by
    intro x y z d hd hxy hyz
    rw [less_number hd]
    rcases (less_number hd).mp hxy with hnone | ⟨e, he, hde⟩
    · refine Or.inl ?_
      cases y <;> cases z <;> simp_all [DomainElement.number?, less]
    · refine ((less_number he).mp hyz).imp_right ?_
      rintro ⟨f, hf, hef⟩
      exact ⟨f, hf, Double.less_trans hde hef⟩
  induction x using DomainElement.induction generalizing y z with
  | int n => exact hnumber rfl hxy hyz
  | double d hd => exact hnumber rfl hxy hyz
  | string s =>
    rw [less_string]
    rcases less_string.mp hxy with ⟨t, rfl, hst⟩ | ⟨g, bs, rfl⟩
    · refine (less_string.mp hyz).imp_left ?_
      rintro ⟨u, hu, htu⟩
      exact ⟨u, hu, hst.trans htu⟩
    · obtain ⟨h, cs, rfl, -⟩ := less_compound.mp hyz
      exact Or.inr ⟨h, cs, rfl⟩
  | compound f as ih =>
    obtain ⟨g, bs, rfl, hfg⟩ := less_compound.mp hxy
    obtain ⟨h, cs, rfl, hgh⟩ := less_compound.mp hyz
    refine less_compound.mpr ⟨h, cs, rfl, ?_⟩
    rcases hfg with hfg | ⟨hfg, hab⟩ <;> rcases hgh with hgh | ⟨hgh, hbc⟩
    · exact Or.inl (hfg.trans hgh)
    · exact Or.inl (hgh ▸ hfg)
    · exact Or.inl (hfg ▸ hgh)
    · refine Or.inr ⟨hfg.trans hgh, ?_⟩
      have has := elements.arguments_mem hx
      have hbs := elements.arguments_mem hy
      have hcs := elements.arguments_mem hz
      refine lessElements_trans (fun a _ => less_irrefl a) ?_ ?_ ?_ hab hbc
      · exact fun a ha b hb c hc => ih a ha (has a ha) b (hbs b hb) c (hcs c hc)
      · exact fun a ha b hb => less_total separated a (has a ha) b (hbs b hb)
      · exact fun b hb c hc => less_total separated b (hbs b hb) c (hcs c hc)

end Separated

theorem lessElements_irrefl (as : List DomainElement) : lessElements as as = false := by
  rw [← Bool.not_eq_true]
  intro h
  exact Bool.false_ne_true ((lessElements_asymm (fun a _ => less_asymm a) h).symm.trans h)

theorem lessTuple_iff {t u : List DomainElement} : lessTuple t u = true ↔
    t.length < u.length ∨ t.length = u.length ∧ lessElements t u = true := by
  rw [lessTuple]
  rcases lt_trichotomy t.length u.length with h | h | h
  · simp [h]
  · simp [h]
  · simp [h, h.not_gt, h.ne']

def Elements.tuples (elements : Elements) : Set (List DomainElement) := {t | ∀ d ∈ t, d ∈ elements.elements}

-- in the sets of elements and of tuples that are sorted by the order no two distinct ones are taken for each other
def SortsApart (elements : Elements) : Prop :=
  Ordered elements.elements less ∧ Ordered elements.tuples lessTuple

theorem sortsApart_iff (elements : Elements) : SortsApart elements ↔ Separated elements := by
  constructor
  · rintro ⟨hordered, -⟩
    refine ⟨fun x hx y hy hxnan hy' => ?_, fun f g as hf hg hname hsorts => ?_⟩
    · by_contra hne
      obtain ⟨e, he⟩ := Option.ne_none_iff_exists'.mp hy'
      have hxy : less x y = false := by
        rw [← Bool.not_eq_true, less_number hxnan]
        simp [he]
      have hyx : less y x = false := by
        rw [← Bool.not_eq_true, less_number he]
        simp [hxnan]
      have htotal := hordered.total x hx y hy hne
      rw [hxy, hyx] at htotal
      cases htotal
    · by_contra hne
      have hnot : ∀ f g : Function, f.names = g.names → less (.compound f as) (.compound g as) = false := by
        intro f g h
        rw [← Bool.not_eq_true, less_compound]
        rintro ⟨g', bs, heq, hlt⟩
        cases heq
        simp [h, lessElements_irrefl] at hlt
      have hnames := Function.names_eq_iff.mpr ⟨hname, hsorts⟩
      have htotal := hordered.total _ hf _ hg (by simpa using hne)
      rw [hnot f g hnames, hnot g f hnames.symm] at htotal
      cases htotal
  · intro separated
    refine ⟨⟨fun x _ => less_irrefl x, less_trans separated, fun x hx y hy hne => ?_⟩,
      fun t _ => ?_, fun t ht u hu v hv htu huv => ?_, fun t ht u hu hne => ?_⟩
    · cases hxy : less x y with
      | true => rw [less_asymm x y hxy, Bool.not_false]
      | false =>
        cases hyx : less y x with
        | true => rfl
        | false => exact absurd (less_total separated x hx y hy hxy hyx) hne
    · simp [lessTuple, lessElements_irrefl]
    · rw [lessTuple_iff] at htu huv ⊢
      rcases htu with htu | ⟨htu, hab⟩ <;> rcases huv with huv | ⟨huv, hbc⟩
      · exact Or.inl (htu.trans huv)
      · exact Or.inl (huv ▸ htu)
      · exact Or.inl (htu ▸ huv)
      · refine Or.inr ⟨htu.trans huv, lessElements_trans (fun a _ => less_irrefl a) ?_ ?_ ?_ hab hbc⟩
        · exact fun a ha b hb c hc => less_trans separated a (ht a ha) b (hu b hb) c (hv c hc)
        · exact fun a ha b hb => less_total separated a (ht a ha) b (hu b hb)
        · exact fun b hb c hc => less_total separated b (hu b hb) c (hv c hc)
    · rcases lt_trichotomy t.length u.length with h | h | h
      · simp [lessTuple, h, h.not_gt]
      · simp only [lessTuple, h, lt_irrefl, if_false]
        cases htu : lessElements t u with
        | true => rw [lessElements_asymm (fun a _ => less_asymm a) htu, Bool.not_false]
        | false =>
          cases hut : lessElements u t with
          | true => rfl
          | false =>
            refine absurd (lessElements_total h (fun a ha b hb => ?_) htu hut) hne
            exact less_total separated a (ht a ha) b (hu b hb)
      · simp [lessTuple, h, h.not_gt]

-- `type T constructed from {a}` in each of two vocabularies
def constants : Elements where
  elements := {.compound ⟨0, "a/0", [], ⟨0, "T"⟩⟩ [], .compound ⟨1, "a/0", [], ⟨1, "T"⟩⟩ []}
  arguments_mem := by
    rintro f as (h | h) a ha <;> cases h <;> cases ha
  arguments_length := by
    rintro f as (h | h) <;> cases h <;> rfl

theorem not_sortsApart_constants : ¬ SortsApart constants := by
  rintro ⟨hordered, -⟩
  have htotal := hordered.total _ (Or.inl rfl) _ (Or.inr rfl) (by simp)
  simp [less, lessElements, Function.sorts, Structure.Compare.less_irrefl] at htotal

end ElementOrder
