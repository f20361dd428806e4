import Mathlib

/-!
# Step functions as sorted lists of breakpoints

A list of pairs `(p, v)` with increasing positions stands for the function that takes the value
`d` before the first position and the value `v` from `(p, v)` up to the next one.  A list in
which every entry changes the value is determined by its function (`Canonical.unique`), and two
such functions are combined pointwise by one sweep over both lists (`merge`).

* `valueAt`, `limit`: the value at a position, and after the last one.
* `Canonical`: increasing positions, and no entry repeats the value before it.
* `compress`: drops the entries that repeat a value.
* `merge`: the pointwise combination of two lists, with `valueAt_merge` and `canonical_merge`.
* `toggles`: a list of positions as the list of a two-valued function.
-/

namespace WebKit.Library.StepFunction

open List

variable {α β γ δ : Type*}

/-! ## Values -/

/-- The value after the last entry. -/
def limit (d : β) : List (α × β) → β
  | [] => d
  | (_, v) :: l => limit v l

@[simp] theorem limit_nil (d : β) : limit d ([] : List (α × β)) = d := rfl

@[simp] theorem limit_cons (d v : β) (p : α) (l : List (α × β)) :
    limit d ((p, v) :: l) = limit v l := rfl

theorem limit_append (d : β) : ∀ (l l' : List (α × β)), limit d (l ++ l') = limit (limit d l) l'
  | [], _ => rfl
  | (_, v) :: l, l' => limit_append v l l'

theorem limit_append_singleton (d : β) (l : List (α × β)) (p : α) (v : β) :
    limit d (l ++ [(p, v)]) = v := limit_append d l [(p, v)]

theorem limit_eq_or_mem : ∀ (d : β) (l : List (α × β)), limit d l = d ∨ ∃ p, (p, limit d l) ∈ l
  | _, [] => Or.inl rfl
  | d, (p, v) :: l => by
    rw [limit_cons]
    rcases limit_eq_or_mem v l with hv | ⟨q, hq⟩
    · exact Or.inr ⟨p, by rw [hv]; exact mem_cons_self⟩
    · exact Or.inr ⟨q, mem_cons_of_mem _ hq⟩

variable {f : β → γ} {d v : β} {l : List (α × β)} {p x : α}

theorem limit_map {α' : Type*} {g : α → α'} :
    ∀ {d : β} (l : List (α × β)), limit (f d) (l.map fun e => (g e.1, f e.2)) = f (limit d l)
  | _, [] => rfl
  | _, (_, v) :: l => by rw [map_cons, limit_cons, limit_cons, limit_map l]

variable [LinearOrder α]

/-- The value at `x` of the function that is `d` before the first entry. -/
def valueAt (d : β) : List (α × β) → α → β
  | [], _ => d
  | (p, v) :: l, x => if p ≤ x then valueAt v l x else d

/-- The positions increase. -/
def Sorted (l : List (α × β)) : Prop := l.Pairwise fun e e' => e.1 < e'.1

@[simp] theorem valueAt_nil (d : β) (x : α) : valueAt d ([] : List (α × β)) x = d := rfl

theorem valueAt_cons_of_le (h : p ≤ x) : valueAt d ((p, v) :: l) x = valueAt v l x := if_pos h

theorem valueAt_cons_of_lt (h : x < p) : valueAt d ((p, v) :: l) x = d := if_neg (not_le.mpr h)

/-- Before every entry the function has its first value. -/
theorem valueAt_of_before : ∀ {l : List (α × β)}, (∀ e ∈ l, x < e.1) → valueAt d l x = d
  | [], _ => rfl
  | _ :: _, h => valueAt_cons_of_lt (h _ mem_cons_self)

/-- After every entry the function has its last value. -/
theorem valueAt_of_after :
    ∀ {d : β} {l : List (α × β)}, (∀ e ∈ l, e.1 ≤ x) → valueAt d l x = limit d l
  | _, [], _ => rfl
  | _, (_, v) :: l, h => by
    rw [valueAt_cons_of_le (h _ mem_cons_self), limit_cons]
    exact valueAt_of_after fun e he => h e (mem_cons_of_mem _ he)

/-- Past the entries of the first part, only the second part matters. -/
theorem valueAt_append_of_after :
    ∀ {d : β} {l : List (α × β)} (l' : List (α × β)), (∀ e ∈ l, e.1 ≤ x) →
      valueAt d (l ++ l') x = valueAt (limit d l) l' x
  | _, [], _, _ => rfl
  | _, (_, v) :: l, l', h => by
    rw [cons_append, valueAt_cons_of_le (h _ mem_cons_self), limit_cons]
    exact valueAt_append_of_after l' fun e he => h e (mem_cons_of_mem _ he)

/-- Every value is the first one or stands in an entry at or before the position. -/
theorem valueAt_eq_or_mem {x : α} :
    ∀ (d : β) (l : List (α × β)), valueAt d l x = d ∨ ∃ p, (p, valueAt d l x) ∈ l ∧ p ≤ x
  | _, [] => Or.inl rfl
  | d, (p, v) :: l => by
    by_cases h : p ≤ x
    · rw [valueAt_cons_of_le h]
      rcases valueAt_eq_or_mem (x := x) v l with hv | ⟨q, hq, hqx⟩
      · exact Or.inr ⟨p, by rw [hv]; exact mem_cons_self, h⟩
      · exact Or.inr ⟨q, mem_cons_of_mem _ hq, hqx⟩
    · exact Or.inl (valueAt_cons_of_lt (not_le.mp h))

/-- Moving the positions in an order-preserving way moves the function. -/
theorem valueAt_map_positions {α' : Type*} [LinearOrder α'] {g : α → α'}
    (hg : ∀ p x, g p ≤ g x ↔ p ≤ x) : ∀ {d : β} (l : List (α × β)),
      valueAt (f d) (l.map fun e => (g e.1, f e.2)) (g x) = f (valueAt d l x)
  | _, [] => rfl
  | d, (p, v) :: l => by
    rw [map_cons]
    by_cases h : p ≤ x
    · rw [valueAt_cons_of_le ((hg p x).mpr h), valueAt_cons_of_le h, valueAt_map_positions hg l]
    · rw [valueAt_cons_of_lt (not_le.mp fun hle => h ((hg p x).mp hle)),
        valueAt_cons_of_lt (not_le.mp h)]

theorem valueAt_map (l : List (α × β)) :
    valueAt (f d) (l.map fun e => (e.1, f e.2)) x = f (valueAt d l x) :=
  valueAt_map_positions (g := id) (fun _ _ => Iff.rfl) l

theorem Sorted.map (h : Sorted l) : Sorted (l.map fun e => (e.1, f e.2)) := pairwise_map.mpr h

theorem sorted_cons : Sorted ((p, v) :: l) ↔ (∀ e ∈ l, p < e.1) ∧ Sorted l := pairwise_cons

/-! ## Canonical lists -/

/-- Increasing positions, and no entry repeats the value before it. -/
def Canonical : β → List (α × β) → Prop
  | _, [] => True
  | d, (p, v) :: l => v ≠ d ∧ (∀ e ∈ l, p < e.1) ∧ Canonical v l

theorem canonical_nil (d : β) : Canonical d ([] : List (α × β)) := trivial

theorem Canonical.sorted : ∀ {d : β} {l : List (α × β)}, Canonical d l → Sorted l
  | _, [], _ => List.Pairwise.nil
  | _, (_, _) :: _, h => sorted_cons.mpr ⟨h.2.1, Canonical.sorted h.2.2⟩

/-- Moving the positions and renaming the values keeps a list canonical. -/
theorem Canonical.map_positions {α' : Type*} [LinearOrder α'] {g : α → α'}
    (hg : ∀ p x, g p < g x ↔ p < x) (hf : Function.Injective f) : ∀ {d : β} {l : List (α × β)},
      Canonical d l → Canonical (f d) (l.map fun e => (g e.1, f e.2))
  | _, [], _ => trivial
  | _, (p, v) :: l, h => by
    refine ⟨fun heq => h.1 (hf heq), fun e he => ?_, Canonical.map_positions hg hf h.2.2⟩
    obtain ⟨e', he', rfl⟩ := mem_map.mp he
    exact (hg p e'.1).mpr (h.2.1 e' he')

theorem Canonical.append_right :
    ∀ {d : β} {l l' : List (α × β)}, Canonical d (l ++ l') → Canonical (limit d l) l'
  | _, [], _, h => h
  | _, (_, _) :: l, _, h => Canonical.append_right (l := l) h.2.2

/-- A canonical list is determined by its function. -/
theorem Canonical.unique : ∀ {d : β} {l l' : List (α × β)}, Canonical d l → Canonical d l' →
    (∀ x, valueAt d l x = valueAt d l' x) → l = l'
  | _, [], [], _, _, _ => rfl
  | d, [], (q, w) :: l', _, h', hv => by
    have hq := hv q
    rw [valueAt_cons_of_le le_rfl, valueAt_of_before h'.2.1] at hq
    exact absurd hq.symm h'.1
  | d, (p, v) :: l, [], h, _, hv => by
    have hp := hv p
    rw [valueAt_cons_of_le le_rfl, valueAt_of_before h.2.1] at hp
    exact absurd hp h.1
  | d, (p, v) :: l, (q, w) :: l', h, h', hv => by
    rcases lt_trichotomy p q with hpq | rfl | hqp
    · have hp := hv p
      rw [valueAt_cons_of_le le_rfl, valueAt_of_before h.2.1, valueAt_cons_of_lt hpq] at hp
      exact absurd hp h.1
    · have hp := hv p
      rw [valueAt_cons_of_le le_rfl, valueAt_cons_of_le le_rfl, valueAt_of_before h.2.1,
        valueAt_of_before h'.2.1] at hp
      subst hp
      have htail : l = l' := by
        refine Canonical.unique h.2.2 h'.2.2 fun x => ?_
        rcases le_or_gt p x with hx | hx
        · have hvx := hv x
          rwa [valueAt_cons_of_le hx, valueAt_cons_of_le hx] at hvx
        · rw [valueAt_of_before fun e he => lt_trans hx (h.2.1 e he),
            valueAt_of_before fun e he => lt_trans hx (h'.2.1 e he)]
      rw [htail]
    · have hq := hv q
      rw [valueAt_cons_of_lt hqp, valueAt_cons_of_le le_rfl, valueAt_of_before h'.2.1] at hq
      exact absurd hq.symm h'.1

/-- The value of a canonical list at the position of one of its entries is that entry's. -/
theorem valueAt_of_mem : ∀ {d : β} {l : List (α × β)}, Sorted l → (p, v) ∈ l → valueAt d l p = v
  | _, (q, w) :: l, h, hm => by
    rw [sorted_cons] at h
    rcases mem_cons.mp hm with heq | hm
    · cases heq
      rw [valueAt_cons_of_le le_rfl, valueAt_of_before h.1]
    · rw [valueAt_cons_of_le (h.1 _ hm).le]
      exact valueAt_of_mem h.2 hm

/-! ## Dropping repeated values -/

section Compress

variable [DecidableEq δ]

/-- Puts an entry before a list unless it repeats the value `w`. -/
def put (w : δ) (p : α) (z : δ) (rest : List (α × δ)) : List (α × δ) :=
  if z = w then rest else (p, z) :: rest

/-- Drops the entries that repeat the value before them. -/
def compress : δ → List (α × δ) → List (α × δ)
  | _, [] => []
  | w, (p, z) :: l => put w p z (compress z l)

omit [LinearOrder α] in
theorem compress_cons (w : δ) (p : α) (z : δ) (l : List (α × δ)) :
    compress w ((p, z) :: l) = put w p z (compress z l) := rfl

omit [LinearOrder α] in
theorem put_eq_append (w : δ) (p : α) (z : δ) (rest : List (α × δ)) :
    put w p z rest = compress w [(p, z)] ++ rest := by
  by_cases h : z = w
  · rw [put, if_pos h, compress_cons, put, if_pos h]
    rfl
  · rw [put, if_neg h, compress_cons, put, if_neg h]
    rfl

omit [LinearOrder α] in
theorem compress_cons_same (w : δ) (p : α) (l : List (α × δ)) :
    compress w ((p, w) :: l) = compress w l := if_pos rfl

omit [LinearOrder α] in
theorem compress_cons_ne (p : α) (l : List (α × δ)) (h : z ≠ w) :
    compress w ((p, z) :: l) = (p, z) :: compress z l := if_neg h

omit [LinearOrder α] in
theorem mem_of_mem_compress : ∀ {w : δ} {l : List (α × δ)}, e ∈ compress w l → e ∈ l
  | _, [], h => h
  | w, (p, z) :: l, h => by
    by_cases hz : z = w
    · subst hz
      rw [compress_cons_same] at h
      exact mem_cons_of_mem _ (mem_of_mem_compress h)
    · rw [compress_cons_ne p l hz] at h
      rcases mem_cons.mp h with rfl | h
      · exact mem_cons_self
      · exact mem_cons_of_mem _ (mem_of_mem_compress h)

theorem canonical_compress : ∀ (w : δ) {l : List (α × δ)}, Sorted l → Canonical w (compress w l)
  | _, [], _ => trivial
  | w, (p, z) :: l, h => by
    rw [sorted_cons] at h
    by_cases hz : z = w
    · subst hz
      rw [compress_cons_same]
      exact canonical_compress z h.2
    · rw [compress_cons_ne p l hz]
      exact ⟨hz, fun e he => h.1 e (mem_of_mem_compress he), canonical_compress z h.2⟩

theorem valueAt_compress :
    ∀ (w : δ) {l : List (α × δ)}, Sorted l → valueAt w (compress w l) x = valueAt w l x
  | _, [], _ => rfl
  | w, (p, z) :: l, h => by
    rw [sorted_cons] at h
    by_cases hz : z = w
    · subst hz
      rw [compress_cons_same, valueAt_compress z h.2]
      rcases le_or_gt p x with hx | hx
      · rw [valueAt_cons_of_le hx]
      · rw [valueAt_cons_of_lt hx, valueAt_of_before fun e he => lt_trans hx (h.1 e he)]
    · rw [compress_cons_ne p l hz]
      rcases le_or_gt p x with hx | hx
      · rw [valueAt_cons_of_le hx, valueAt_cons_of_le hx, valueAt_compress z h.2]
      · rw [valueAt_cons_of_lt hx, valueAt_cons_of_lt hx]

omit [LinearOrder α] in
theorem limit_compress : ∀ (w : δ) (l : List (α × δ)), limit w (compress w l) = limit w l
  | _, [] => rfl
  | w, (p, z) :: l => by
    by_cases hz : z = w
    · subst hz
      rw [compress_cons_same, limit_cons, limit_compress z l]
    · rw [compress_cons_ne p l hz, limit_cons, limit_cons, limit_compress z l]

/-- A list without repetitions is left as it is. -/
theorem compress_of_canonical : ∀ {w : δ} {l : List (α × δ)}, Canonical w l → compress w l = l
  | _, [], _ => rfl
  | _, (p, _) :: l, h => by
    rw [compress_cons_ne p l h.1, compress_of_canonical h.2.2]

omit [LinearOrder α] in
/-- A list that only repeats the first value is dropped. -/
theorem compress_of_forall_eq : ∀ {l : List (α × δ)}, (∀ e ∈ l, e.2 = w) → compress w l = []
  | [], _ => rfl
  | (p, z) :: l, h => by
    have hz : z = w := h _ mem_cons_self
    subst hz
    rw [compress_cons_same]
    exact compress_of_forall_eq fun e he => h e (mem_cons_of_mem _ he)

end Compress

/-! ## One sweep over two lists -/

/-- The breakpoints of two lists, each with the values both functions take from there on. -/
def joint (u : β) (v : γ) : List (α × β) → List (α × γ) → List (α × (β × γ))
  | [], l' => l'.map fun e => (e.1, (u, e.2))
  | l, [] => l.map fun e => (e.1, (e.2, v))
  | (p, u') :: l, (q, v') :: l' =>
    if p < q then (p, (u', v)) :: joint u' v l ((q, v') :: l')
    else if q < p then (q, (u, v')) :: joint u v' ((p, u') :: l) l'
    else (p, (u', v')) :: joint u' v' l l'
  termination_by l l' => l.length + l'.length

variable (u : β)

theorem joint_nil_left (v : γ) (l' : List (α × γ)) :
    joint u v ([] : List (α × β)) l' = l'.map fun e => (e.1, (u, e.2)) := by
  rw [joint]

theorem joint_nil_right (v : γ) (l : List (α × β)) :
    joint u v l ([] : List (α × γ)) = l.map fun e => (e.1, (e.2, v)) := by
  cases l with
  | nil => rw [joint]; rfl
  | cons e l => rw [joint]; simp

theorem mem_positions_joint (v : γ) (l : List (α × β))
    (l' : List (α × γ)) (he : e ∈ joint u v l l') : e.1 ∈ l.map Prod.fst ∨ e.1 ∈ l'.map Prod.fst := by
  fun_induction joint u v l l' with
  | case1 u v l' =>
    obtain ⟨e', he', rfl⟩ := mem_map.mp he
    exact Or.inr (mem_map_of_mem he')
  | case2 u v l =>
    obtain ⟨e', he', rfl⟩ := mem_map.mp he
    exact Or.inl (mem_map_of_mem he')
  | case3 u v p u' l q v' l' hpq ih =>
    rcases mem_cons.mp he with rfl | he
    · simp
    · rcases ih he with h | h
      · exact Or.inl (mem_cons_of_mem _ h)
      · exact Or.inr h
  | case4 u v p u' l q v' l' hpq hqp ih =>
    rcases mem_cons.mp he with rfl | he
    · simp
    · rcases ih he with h | h
      · exact Or.inl h
      · exact Or.inr (mem_cons_of_mem _ h)
  | case5 u v p u' l q v' l' hpq hqp ih =>
    rcases mem_cons.mp he with rfl | he
    · simp
    · rcases ih he with h | h
      · exact Or.inl (mem_cons_of_mem _ h)
      · exact Or.inr (mem_cons_of_mem _ h)

theorem sorted_joint (v : γ) (l : List (α × β)) (l' : List (α × γ)) (h : Sorted l)
    (h' : Sorted l') : Sorted (joint u v l l') := by
  -- everything in the rest of the sweep stands after the breakpoint just passed
  have later : ∀ {u : β} {v : γ} {p : α} {l : List (α × β)} {l' : List (α × γ)},
      (∀ e ∈ l, p < e.1) → (∀ e ∈ l', p < e.1) → ∀ e ∈ joint u v l l', p < e.1 := by
    intro u v p l l' hl hl' e he
    rcases mem_positions_joint u v l l' he with hm | hm
    · obtain ⟨e', he', heq⟩ := mem_map.mp hm
      exact heq ▸ hl e' he'
    · obtain ⟨e', he', heq⟩ := mem_map.mp hm
      exact heq ▸ hl' e' he'
  fun_induction joint u v l l' with
  | case1 u v l' => exact h'.map
  | case2 u v l => exact h.map (f := fun z => (z, v))
  | case3 u v p u' l q v' l' hpq ih =>
    rw [sorted_cons] at h
    refine sorted_cons.mpr ⟨later h.1 ?_, ih h.2 h'⟩
    intro e he
    rcases mem_cons.mp he with rfl | he
    · exact hpq
    · exact lt_trans hpq ((sorted_cons.mp h').1 e he)
  | case4 u v p u' l q v' l' hpq hqp ih =>
    rw [sorted_cons] at h'
    refine sorted_cons.mpr ⟨later ?_ h'.1, ih h h'.2⟩
    intro e he
    rcases mem_cons.mp he with rfl | he
    · exact hqp
    · exact lt_trans hqp ((sorted_cons.mp h).1 e he)
  | case5 u v p u' l q v' l' hpq hqp ih =>
    have heq : p = q := le_antisymm (not_lt.mp hqp) (not_lt.mp hpq)
    subst heq
    rw [sorted_cons] at h h'
    exact sorted_cons.mpr ⟨later h.1 h'.1, ih h.2 h'.2⟩

theorem valueAt_joint (v : γ) (l : List (α × β)) (l' : List (α × γ)) (x : α) :
    valueAt (u, v) (joint u v l l') x = (valueAt u l x, valueAt v l' x) := by
  fun_induction joint u v l l' with
  | case1 u v l' => exact valueAt_map (f := fun z => (u, z)) l'
  | case2 u v l => exact valueAt_map (f := fun z => (z, v)) l
  | case3 u v p u' l q v' l' hpq ih =>
    rcases le_or_gt p x with hx | hx
    · rw [valueAt_cons_of_le hx, valueAt_cons_of_le hx, ih]
    · rw [valueAt_cons_of_lt hx, valueAt_cons_of_lt hx, valueAt_cons_of_lt (lt_trans hx hpq)]
  | case4 u v p u' l q v' l' hpq hqp ih =>
    rcases le_or_gt q x with hx | hx
    · rw [valueAt_cons_of_le hx, valueAt_cons_of_le (d := v) hx, ih]
    · rw [valueAt_cons_of_lt hx, valueAt_cons_of_lt hx, valueAt_cons_of_lt (lt_trans hx hqp)]
  | case5 u v p u' l q v' l' hpq hqp ih =>
    have heq : p = q := le_antisymm (not_lt.mp hqp) (not_lt.mp hpq)
    subst heq
    rcases le_or_gt p x with hx | hx
    · rw [valueAt_cons_of_le hx, valueAt_cons_of_le hx, valueAt_cons_of_le hx, ih]
    · rw [valueAt_cons_of_lt hx, valueAt_cons_of_lt hx, valueAt_cons_of_lt hx]

theorem limit_joint (v : γ) (l : List (α × β)) (l' : List (α × γ)) :
    limit (u, v) (joint u v l l') = (limit u l, limit v l') := by
  fun_induction joint u v l l' with
  | case1 u v l' => exact limit_map (g := id) (f := fun z => (u, z)) l'
  | case2 u v l => exact limit_map (g := id) (f := fun z => (z, v)) l
  | case3 u v p u' l q v' l' hpq ih => rw [limit_cons, ih, limit_cons u]
  | case4 u v p u' l q v' l' hpq hqp ih => rw [limit_cons, ih, limit_cons v]
  | case5 u v p u' l q v' l' hpq hqp ih => rw [limit_cons, ih, limit_cons, limit_cons]

variable {u}

section Merge

variable [DecidableEq δ]

/-- The pointwise combination of two functions, without the breakpoints that change nothing. -/
def merge (f : β → γ → δ) (w : δ) (u : β) (v : γ) (l : List (α × β)) (l' : List (α × γ)) :
    List (α × δ) :=
  compress w ((joint u v l l').map fun e => (e.1, f e.2.1 e.2.2))

variable {f : β → γ → δ} {w : δ} {u : β} {v : γ} {l : List (α × β)} {l' : List (α × γ)}

theorem valueAt_merge (hw : w = f u v) (h : Sorted l) (h' : Sorted l') (x : α) :
    valueAt w (merge f w u v l l') x = f (valueAt u l x) (valueAt v l' x) := by
  subst hw
  have hs : Sorted ((joint u v l l').map fun e => (e.1, f e.2.1 e.2.2)) :=
    (sorted_joint u v l l' h h').map (f := fun z => f z.1 z.2)
  rw [merge, valueAt_compress _ hs]
  have hmap := valueAt_map (f := fun z : β × γ => f z.1 z.2) (d := (u, v)) (x := x)
    (joint u v l l')
  rw [valueAt_joint] at hmap
  exact hmap

theorem canonical_merge (h : Sorted l) (h' : Sorted l') : Canonical w (merge f w u v l l') :=
  canonical_compress w ((sorted_joint u v l l' h h').map (f := fun z => f z.1 z.2))

theorem limit_merge (hw : w = f u v) :
    limit w (merge f w u v l l') = f (limit u l) (limit v l') := by
  subst hw
  rw [merge, limit_compress]
  have hmap := limit_map (g := id) (f := fun z : β × γ => f z.1 z.2) (d := (u, v)) (joint u v l l')
  rw [limit_joint] at hmap
  exact hmap

variable {u' : β} {v' : γ}

theorem merge_cons_lt (hpq : p < q) : merge f w u v ((p, u') :: l) ((q, v') :: l') =
      put w p (f u' v) (merge f (f u' v) u' v l ((q, v') :: l')) := by
  rw [merge, joint, if_pos hpq, map_cons, compress_cons]
  rfl

theorem merge_cons_gt (hqp : q < p) : merge f w u v ((p, u') :: l) ((q, v') :: l') =
      put w q (f u v') (merge f (f u v') u v' ((p, u') :: l) l') := by
  rw [merge, joint, if_neg (lt_asymm hqp), if_pos hqp, map_cons, compress_cons]
  rfl

theorem merge_cons_eq : merge f w u v ((p, u') :: l) ((p, v') :: l') =
      put w p (f u' v') (merge f (f u' v') u' v' l l') := by
  rw [merge, joint, if_neg (lt_irrefl p), if_neg (lt_irrefl p), map_cons, compress_cons]
  rfl

theorem mem_positions_merge (he : e ∈ merge f w u v l l') :
    e.1 ∈ l.map Prod.fst ∨ e.1 ∈ l'.map Prod.fst := by
  obtain ⟨e', he', heq⟩ := mem_map.mp (mem_of_mem_compress he)
  rw [← heq]
  exact mem_positions_joint u v l l' he'

theorem merge_nil_left :
    merge f w u v ([] : List (α × β)) l' = compress w (l'.map fun e => (e.1, f u e.2)) := by
  rw [merge, joint_nil_left, map_map]
  rfl

theorem merge_nil_right :
    merge f w u v l ([] : List (α × γ)) = compress w (l.map fun e => (e.1, f e.2 v)) := by
  rw [merge, joint_nil_right, map_map]
  rfl

end Merge

/-! ## Two-valued functions -/

/-- The two-valued function that starts with `b` and changes at each position of the list. -/
def toggles : Bool → List α → List (α × Bool)
  | _, [] => []
  | b, x :: l => (x, !b) :: toggles (!b) l

omit [LinearOrder α] in
theorem toggles_cons (b : Bool) (x : α) (l : List α) :
    toggles b (x :: l) = (x, !b) :: toggles (!b) l := rfl

omit [LinearOrder α] in
@[simp] theorem positions_toggles : ∀ (b : Bool) (l : List α), (toggles b l).map Prod.fst = l
  | _, [] => rfl
  | b, x :: l => by rw [toggles, map_cons, positions_toggles (!b) l]

omit [LinearOrder α] in
theorem toggles_append : ∀ (b : Bool) (l l' : List α),
    toggles b (l ++ l') = toggles b l ++ toggles (limit b (toggles b l)) l'
  | _, [], _ => rfl
  | b, x :: l, l' => by
    rw [cons_append, toggles_cons, toggles_append (!b) l l', toggles_cons, cons_append, limit_cons]

omit [LinearOrder α] in
theorem toggles_map {α' : Type*} (g : α → α') : ∀ (b : Bool) (l : List α),
    toggles b (l.map g) = (toggles b l).map fun e => (g e.1, e.2)
  | _, [] => rfl
  | b, x :: l => by rw [map_cons, toggles_cons, toggles_map g (!b) l, toggles_cons, map_cons]

omit [LinearOrder α] in
theorem mem_of_mem_toggles {b : Bool} {l : List α} {e : α × Bool} (h : e ∈ toggles b l) :
    e.1 ∈ l := by
  have hmem : e.1 ∈ (toggles b l).map Prod.fst := mem_map_of_mem h
  rwa [positions_toggles] at hmem

theorem canonical_toggles : ∀ (b : Bool) {l : List α}, l.Pairwise (· < ·) →
    Canonical b (toggles b l)
  | _, [], _ => trivial
  | b, x :: l, h => by
    rw [pairwise_cons] at h
    exact ⟨by cases b <;> decide, fun e he => h.1 _ (mem_of_mem_toggles he),
      canonical_toggles (!b) h.2⟩

/-- A canonical two-valued list is given by its positions. -/
theorem toggles_of_canonical :
    ∀ {b : Bool} {l : List (α × Bool)}, Canonical b l → toggles b (l.map Prod.fst) = l
  | _, [], _ => rfl
  | b, (p, v) :: l, h => by
    have hv : v = !b := Bool.eq_not.mpr h.1
    subst hv
    rw [map_cons, toggles, toggles_of_canonical h.2.2]

omit [LinearOrder α] in
theorem limit_toggles : ∀ (b : Bool) (l : List α),
    limit b (toggles b l) = (b ^^ decide (l.length % 2 = 1))
  | b, [] => by simp [toggles]
  | b, x :: l => by
    rw [toggles, limit_cons, limit_toggles (!b) l, length_cons]
    rcases Nat.mod_two_eq_zero_or_one l.length with h | h
    · rw [show (l.length + 1) % 2 = 1 by omega, h]
      cases b <;> rfl
    · rw [show (l.length + 1) % 2 = 0 by omega, h]
      cases b <;> rfl

end WebKit.Library.StepFunction
