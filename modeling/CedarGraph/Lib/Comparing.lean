import CedarGraph.Lib.Sorting

/-!
# Three-way comparisons

A three-way comparison orders a class of entries if it is reversed with its arguments and
transitive.  The comparison of keys in a linear order is such, and gives the comparison which
sorting routines expect.
-/

universe u v

variable {α : Type u} {κ : Type v} {c d : α → α → Ordering} {S : α → Prop}

/-- The relation `<` is a strict total order. -/
structure StrictTotal (κ : Type v) [LT κ] : Prop where
  trans : ∀ a b c : κ, a < b → b < c → a < c
  asymm : ∀ a b : κ, a < b → ¬b < a
  total : ∀ a b : κ, ¬a < b → ¬b < a → a = b

theorem strictTotal_of_linearOrder (κ : Type v) [LinearOrder κ] :
  StrictTotal κ
  where
  trans _ _ _ := lt_trans
  asymm _ _ := lt_asymm
  total _ _ h h' := le_antisymm (not_lt.mp h') (not_lt.mp h)

/-- The comparison by `<`. -/
def compareByLT [LT κ] [DecidableLT κ] (a b : κ) : Ordering :=
  if a < b then .lt else if b < a then .gt else .eq

theorem StrictTotal.eq_of_compareByLT [LT κ] [DecidableLT κ] (hκ : StrictTotal κ) {a b : κ}
    (h : compareByLT a b = .eq) :
  a = b
  := by
  unfold compareByLT at h
  apply hκ.total <;> grind

/-- Lists are compared lexicographically. -/
theorem compareByLT_cons [LinearOrder κ] (x y : κ) (l m : List κ) :
  compareByLT (x :: l) (y :: m) = (compareByLT x y).then (compareByLT l m)
  := by
  simp only [compareByLT, List.cons_lt_cons_iff]
  grind [Ordering.then, lt_asymm, lt_irrefl]

/-- The comparison orders a class of entries, up to ties. -/
structure OrdersOn (c : α → α → Ordering) (S : α → Prop) : Prop where
  swap : ∀ a b, S a → S b → c b a = (c a b).swap
  trans : ∀ a b e, S a → S b → S e → c a b ≠ .gt → c b e ≠ .gt → c a e ≠ .gt

theorem StrictTotal.ordersOn [LT κ] [DecidableLT κ] (hκ : StrictTotal κ) (key : α → κ)
    (S : α → Prop) :
  OrdersOn (fun a b => compareByLT (key a) (key b)) S
  where
  swap a b _ _ := by
    have hasymm := hκ.asymm (key a) (key b)
    unfold compareByLT
    grind [Ordering.swap]
  trans a b e _ _ _ := by
    have htrans' := hκ.trans (key a) (key b) (key e)
    have htotal := hκ.total (key e) (key b)
    have htotal' := hκ.total (key b) (key a)
    have hasymm := hκ.asymm (key a) (key e)
    have hasymm' := hκ.asymm (key b) (key e)
    unfold compareByLT
    grind

namespace OrdersOn

theorem congr (h : OrdersOn c S) (hcd : ∀ a b, S a → S b → d a b = c a b) :
  OrdersOn d S
  where
  swap a b ha hb := by
    rw [hcd b a hb ha, hcd a b ha hb]
    apply h.swap a b ha hb
  trans a b e ha hb he := by
    rw [hcd a b ha hb, hcd b e hb he, hcd a e ha he]
    apply h.trans a b e ha hb he

theorem self (h : OrdersOn c S) {a : α} (ha : S a) :
  c a a = .eq
  := by
  have hswap := h.swap a a ha ha
  cases hc : c a a <;> rw [hc] at hswap <;> first | rfl | cases hswap

theorem lt_of_lt_of_le (h : OrdersOn c S) {a b e : α} (ha : S a) (hb : S b) (he : S e)
    (hab : c a b = .lt) (hbe : c b e ≠ .gt) :
  c a e = .lt
  := by
  have hback := h.trans b e a hb he ha
  have hea := h.swap a e ha he
  have hba := h.swap a b ha hb
  cases hae : c a e <;> simp_all

/-- The comparison which a sorting routine expects. -/
theorem strictWeakOn {β : Type*} (h : OrdersOn c S) {key : β → α} {l : List β}
    (hl : ∀ b ∈ l, S (key b)) :
  StrictWeakOn (fun a b => decide (c (key a) (key b) = .lt)) l
  where
  asymm a ha b hb hab := by
    rw [h.swap (key a) (key b) (hl a ha) (hl b hb), of_decide_eq_true hab]
    rfl
  trans a ha b hb e he := by
    have htrans := h.trans (key a) (key b) (key e) (hl a ha) (hl b hb) (hl e he)
    rw [h.swap (key a) (key b) (hl a ha) (hl b hb), h.swap (key b) (key e) (hl b hb) (hl e he),
      h.swap (key a) (key e) (hl a ha) (hl e he)]
    simpa using htrans

end OrdersOn
