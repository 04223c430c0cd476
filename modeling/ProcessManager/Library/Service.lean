import Mathlib

/-! One server that works a unit at a time: how long a customer can be kept waiting, whoever comes
meanwhile, when the line rotates and when the first by some order is served to the end. -/

namespace Rotation

variable {κ : Type*} [DecidableEq κ]

/-- Who is in line, the one being served first, and how many units each one still needs. -/
structure Line (κ : Type*) where
  members : List κ
  left : κ → ℕ

/-- Nobody is in line twice, or without need. -/
structure Line.Proper (s : Line κ) : Prop where
  nodup : s.members.Nodup
  needy : ∀ j ∈ s.members, 1 ≤ s.left j

/-- The head is served a unit; others join; and the head goes behind them unless it is done. -/
def Turn (s t : Line κ) : Prop :=
  ∃ d rest joined, s.members = d :: rest ∧ t.left = Function.update s.left d (s.left d - 1) ∧
    t.members = rest ++ (joined ++ if s.left d ≤ 1 then [] else [d])

/-- `j` is served before `p` is. -/
def Line.Ahead (s : Line κ) (p j : κ) : Prop := j ∈ s.members.takeWhile (· ≠ p)

instance (s : Line κ) (p j : κ) : Decidable (s.Ahead p j) := by
  unfold Line.Ahead
  infer_instance

/-- The units that others may be served before `p` is done: of each no more than `p` needs itself, and
one less of those that `p` is served before. -/
def Line.delay (s : Line κ) (others : Finset κ) (p : κ) : ℕ :=
  s.left p + ∑ j ∈ others, min (s.left j) (if s.Ahead p j then s.left p else s.left p - 1)

variable {s t : Line κ} {others : Finset κ} {p j d : κ} {rest joined : List κ}

theorem Line.delay_le (s : Line κ) (others : Finset κ) (p : κ) :
    s.delay others p ≤ s.left p + ∑ j ∈ others, min (s.left j) (s.left p) := by
  refine Nat.add_le_add_left (Finset.sum_le_sum fun j _ => ?_) _
  split <;> omega

theorem not_ahead_self (hm : s.members = p :: rest) : ¬ s.Ahead p j := by
  simp [Line.Ahead, hm]

theorem ahead_behind (hm : s.members = d :: rest) (hd : d ≠ p) :
    s.Ahead p j ↔ j = d ∨ j ∈ rest.takeWhile (· ≠ p) := by
  simp [Line.Ahead, hm, hd]

theorem takeWhile_append_mem {l r : List κ} (hp : p ∈ l) :
    (l ++ r).takeWhile (· ≠ p) = l.takeWhile (· ≠ p) := by
  induction l with
  | nil => simp at hp
  | cons a l ih =>
    by_cases ha : a = p
    · simp [ha]
    · have hrest : p ∈ l := (List.mem_cons.mp hp).resolve_left fun h => ha h.symm
      rw [List.cons_append, List.takeWhile_cons_of_pos (by simpa using ha),
        List.takeWhile_cons_of_pos (by simpa using ha), ih hrest]

/-- The turn of `p` itself: it is done, or all others are ahead of it and it needs a unit less. -/
theorem Turn.own (hs : s.Proper) (ht : Turn s t) (hm : s.members = p :: rest) (hp : p ∉ others) :
    t.delay others p + 1 ≤ s.delay others p := by
  obtain ⟨d, rest', joined, hm', hleft, -⟩ := ht
  obtain ⟨rfl, rfl⟩ := List.cons.inj (hm'.symm.trans hm)
  have hneed := hs.needy d (by simp [hm])
  have hown : t.left d = s.left d - 1 := by rw [hleft, Function.update_self]
  have hsum : ∑ j ∈ others, min (t.left j) (if t.Ahead d j then t.left d else t.left d - 1) ≤
      ∑ j ∈ others, min (s.left j) (if s.Ahead d j then s.left d else s.left d - 1) := by
    refine Finset.sum_le_sum fun j hj => ?_
    have hjd : j ≠ d := ne_of_mem_of_not_mem hj hp
    rw [hleft, Function.update_of_ne hjd, ← hleft, hown, if_neg (not_ahead_self hm)]
    split <;> omega
  rw [Line.delay, Line.delay]
  omega

/-- The turn of another one: it needs a unit less, and is behind `p` now. -/
theorem Turn.other (hs : s.Proper) (ht : Turn s t) (hm : s.members = d :: rest) (hd : d ≠ p)
    (hp : p ∈ rest) (hin : d ∈ others) :
    t.delay others p + 1 ≤ s.delay others p := by
  obtain ⟨d', rest', joined, hm', hleft, hmembers⟩ := ht
  obtain ⟨rfl, rfl⟩ := List.cons.inj (hm'.symm.trans hm)
  have hneed := hs.needy d' (by simp [hm])
  have hneed' := hs.needy p (by simp [hm, hp])
  have hown : t.left p = s.left p := by rw [hleft, Function.update_of_ne hd.symm]
  have hahead : ∀ j, t.Ahead p j ↔ j ∈ rest'.takeWhile (· ≠ p) := by
    intro j
    rw [Line.Ahead, hmembers, takeWhile_append_mem hp]
  have hnot : d' ∉ rest' := (List.nodup_cons.mp (hm ▸ hs.nodup)).1
  have hterm : ∀ j ∈ others, j ≠ d' →
      min (t.left j) (if t.Ahead p j then t.left p else t.left p - 1) =
        min (s.left j) (if s.Ahead p j then s.left p else s.left p - 1) := by
    intro j _ hj
    have hsame : t.Ahead p j ↔ s.Ahead p j := by
      rw [hahead, ahead_behind hm hd]
      simp [hj]
    rw [hleft, Function.update_of_ne hj, ← hleft, hown, if_congr hsame rfl rfl]
  have hserved : min (t.left d') (if t.Ahead p d' then t.left p else t.left p - 1) <
      min (s.left d') (if s.Ahead p d' then s.left p else s.left p - 1) := by
    have hbehind : ¬ t.Ahead p d' := fun h => hnot (List.takeWhile_subset _ ((hahead d').mp h))
    rw [if_neg hbehind, if_pos ((ahead_behind hm hd).mpr (Or.inl rfl)), hown, hleft,
      Function.update_self]
    omega
  have hle : ∀ j ∈ others, min (t.left j) (if t.Ahead p j then t.left p else t.left p - 1) ≤
      min (s.left j) (if s.Ahead p j then s.left p else s.left p - 1) := by
    intro j hj
    by_cases hj' : j = d'
    · rw [hj']
      exact hserved.le
    · exact (hterm j hj hj').le
  have hsum := Finset.sum_lt_sum hle ⟨d', hin, hserved⟩
  rw [Line.delay, Line.delay]
  omega

/-- With every turn `p` has less delay before it. -/
theorem Turn.delay (hs : s.Proper) (ht : Turn s t) (hp : p ∈ s.members)
    (hothers : ∀ j ∈ s.members, j ≠ p → j ∈ others) (hout : p ∉ others) :
    t.delay others p + 1 ≤ s.delay others p := by
  obtain ⟨d, rest, -, hm, -⟩ := id ht
  by_cases hd : d = p
  · subst hd
    exact ht.own hs hm hout
  · have hrest : p ∈ rest := (List.mem_cons.mp (hm ▸ hp)).resolve_left fun h => hd h.symm
    exact ht.other hs hm hd hrest (hothers d (by simp [hm]) hd)

end Rotation

namespace Precedence

variable {κ : Type*} [DecidableEq κ]

/-- Who is being served, who waits, and how many units each one still needs. -/
structure Desk (κ : Type*) where
  current : Option κ
  waiting : List κ
  left : κ → ℕ

/-- The one being served gets a unit. When it is done, one of those waiting by then follows, whom none
of them is before. -/
inductive Turn (Before : κ → κ → Prop) (s t : Desk κ) : Prop
  | goOn {r : κ} (hcur : s.current = some r) (hmore : 2 ≤ s.left r) (hsame : t.current = some r)
      (hleft : t.left = Function.update s.left r (s.left r - 1))
  | next {r d : κ} (hcur : s.current = some r) (hlast : s.left r = 1) (hnext : t.current = some d)
      (hfirst : ∀ j ∈ s.waiting, j ≠ d → ¬ Before j d)
      (hleft : t.left = Function.update s.left r (s.left r - 1))

/-- The units that are served before `p` is done: those of the one being served, and of all that `p`
is not before. -/
def Desk.delay (Before : κ → κ → Prop) [DecidableRel Before] (s : Desk κ) (others : Finset κ)
    (p : κ) : ℕ :=
  if s.current = some p then s.left p
  else s.left p + ∑ j ∈ others, if s.current = some j ∨ ¬ Before p j then s.left j else 0

variable {Before : κ → κ → Prop} [DecidableRel Before] {s t : Desk κ} {others : Finset κ}
  {p r d : κ}

theorem delay_current (h : s.current = some p) : s.delay Before others p = s.left p := if_pos h

theorem delay_waiting (h : s.current ≠ some p) : s.delay Before others p =
    s.left p + ∑ j ∈ others, if s.current = some j ∨ ¬ Before p j then s.left j else 0 := if_neg h

/-- The one being served needs less, and nobody else counts who did not. -/
theorem delay_lt_of_terms (hs : s.current ≠ some p) (ht : t.current ≠ some p)
    (hleft : t.left p = s.left p) (hr : r ∈ others)
    (hserved : (if t.current = some r ∨ ¬ Before p r then t.left r else 0) < s.left r)
    (hcur : s.current = some r)
    (hterm : ∀ j ∈ others, j ≠ r → (if t.current = some j ∨ ¬ Before p j then t.left j else 0) ≤
      if s.current = some j ∨ ¬ Before p j then s.left j else 0) :
    t.delay Before others p + 1 ≤ s.delay Before others p := by
  have hall : ∀ j ∈ others, (if t.current = some j ∨ ¬ Before p j then t.left j else 0) ≤
      if s.current = some j ∨ ¬ Before p j then s.left j else 0 := by
    intro j hj
    by_cases hj' : j = r
    · rw [hj', if_pos (show s.current = some r ∨ _ from Or.inl hcur)]
      exact hserved.le
    · exact hterm j hj hj'
  have hless : (if t.current = some r ∨ ¬ Before p r then t.left r else 0) <
      if s.current = some r ∨ ¬ Before p r then s.left r else 0 := by
    rwa [if_pos (show s.current = some r ∨ _ from Or.inl hcur)]
  have hsum := Finset.sum_lt_sum hall ⟨r, hr, hless⟩
  rw [delay_waiting ht, delay_waiting hs, hleft]
  omega

/-- As long as `p` is not done, it has less delay before it with every turn. -/
theorem Turn.delay (ht : Turn Before s t) (hp : s.current = some p ∨ p ∈ s.waiting)
    (hstill : s.current = some p → t.current = some p)
    (hothers : ∀ j, s.current = some j → j ≠ p → j ∈ others) :
    t.delay Before others p + 1 ≤ s.delay Before others p := by
  cases ht with
  | @goOn r hcur hmore hsame hleft =>
    by_cases hrp : r = p
    · subst hrp
      rw [delay_current hsame, delay_current hcur, hleft, Function.update_self]
      omega
    · have hne : some r ≠ some p := fun h => hrp (Option.some.inj h)
      refine delay_lt_of_terms (r := r) (hcur ▸ hne) (hsame ▸ hne) ?_ (hothers r hcur hrp) ?_ hcur
        fun j _ hj => ?_
      · rw [hleft, Function.update_of_ne (Ne.symm hrp)]
      · rw [if_pos (Or.inl hsame), hleft, Function.update_self]
        omega
      · rw [hsame, ← hcur, hleft, Function.update_of_ne hj]
  | @next r d hcur hlast hnext hfirst hleft =>
    by_cases hrp : r = p
    · subst hrp
      rw [delay_current (hstill hcur), delay_current hcur, hleft, Function.update_self, hlast]
    · have hne : some r ≠ some p := fun h => hrp (Option.some.inj h)
      have hwait : p ∈ s.waiting := hp.resolve_left (hcur ▸ hne)
      have hown : t.left p = s.left p := by rw [hleft, Function.update_of_ne (Ne.symm hrp)]
      by_cases hdp : d = p
      · subst hdp
        have hone := Finset.single_le_sum
          (f := fun j => if s.current = some j ∨ ¬ Before d j then s.left j else 0)
          (fun j _ => Nat.zero_le _) (hothers r hcur hrp)
        simp only [if_pos (show s.current = some r ∨ _ from Or.inl hcur)] at hone
        rw [delay_current hnext, delay_waiting (hcur ▸ hne), hown]
        omega
      · have hne' : some d ≠ some p := fun h => hdp (Option.some.inj h)
        refine delay_lt_of_terms (r := r) (hcur ▸ hne) (hnext ▸ hne') hown (hothers r hcur hrp) ?_
          hcur fun j _ hj => ?_
        · rw [hleft, Function.update_self, hlast]
          split <;> omega
        · rw [hleft, Function.update_of_ne hj]
          by_cases hjd : j = d
          · subst hjd
            rw [if_pos (Or.inl hnext), if_pos (Or.inr (hfirst p hwait (Ne.symm hdp)))]
          · have hnot : ¬ some d = some j := fun h => hjd (Option.some.inj h).symm
            rw [hnext]
            simp only [hnot, false_or]
            split
            · rw [if_pos (Or.inr ‹_›)]
            · exact Nat.zero_le _

end Precedence
