import Mathlib.Algebra.Order.Ring.Int
import Mathlib.Order.WellFounded
import NdnFc.Lib.Run

/-!
# Keys that were seen recently

A table remembers when each key was first seen, and a queue holds the keys in the order in which
they came, with repetitions. When a key comes, keys at the front whose time is more than a lifetime
ago are forgotten. The time of a key that is not in the table reads as zero, and is written into the
table.
-/

namespace RecentKeys

open Function Option List

variable {K : Type*} [DecidableEq K]

structure State (K : Type*) where
  seen : K → Option ℤ
  queue : List K

def empty : State K := ⟨fun _ => none, []⟩

/-- Forget the keys at the front of the queue that were seen more than a lifetime ago. -/
def forget (lifetime now : ℤ) : (K → Option ℤ) → List K → State K
  | seen, [] => ⟨seen, []⟩
  | seen, key :: queue =>
    let since := (seen key).getD 0
    if since + lifetime < now then forget lifetime now (update seen key none) queue
    else ⟨update seen key (some since), key :: queue⟩

/-- Remember a key, unless it is in the table, and put it into the queue. -/
def remember (now : ℤ) (key : K) (s : State K) : State K where
  seen := update s.seen key (some ((s.seen key).getD now))
  queue := s.queue ++ [key]

def arrive (lifetime : ℤ) (s : State K) (arrival : ℤ × K) : State K :=
  remember arrival.1 arrival.2 (forget lifetime arrival.1 s.seen s.queue)

variable {lifetime now : ℤ} {s : State K} {key : K}

theorem forget_eq (h : lifetime < now) (seen : K → Option ℤ) (queue : List K) :
    ∃ n, forget lifetime now seen queue =
        ⟨fun key => if key ∈ queue.take n then none else seen key, queue.drop n⟩ ∧
      (∀ key ∈ queue.take n, ∀ t ∈ seen key, t + lifetime < now) ∧
      ∀ key ∈ (queue.drop n).head?, key ∉ queue.take n ∧
        ∃ t, seen key = some t ∧ now ≤ t + lifetime := by
  induction queue generalizing seen with
  | nil => exact ⟨0, by simp [forget], by simp, by simp⟩
  | cons key queue ih =>
    rw [forget]
    by_cases hexpired : (seen key).getD 0 + lifetime < now
    · rw [if_pos hexpired]
      obtain ⟨n, hforget, htake, hhead⟩ := ih (update seen key none)
      refine ⟨n + 1, ?_, ?_, ?_⟩
      · rw [hforget, take_succ_cons, drop_succ_cons]
        congr 1
        funext k
        by_cases hk : k = key
        all_goals simp [hk]
      · rw [take_succ_cons, forall_mem_cons]
        refine ⟨fun t ht => ?_, fun k hk t ht => ?_⟩
        · rwa [mem_def.mp ht] at hexpired
        · by_cases hkey : k = key
          · subst hkey
            rwa [mem_def.mp ht] at hexpired
          · refine htake k hk t ?_
            rwa [update_of_ne hkey]
      · rw [drop_succ_cons, take_succ_cons]
        intro k hk
        obtain ⟨hnot, t, ht, hle⟩ := hhead k hk
        have hkey : k ≠ key := by
          rintro rfl
          rw [update_self] at ht
          cases ht
        rw [update_of_ne hkey] at ht
        exact ⟨by simp [hkey, hnot], t, ht, hle⟩
    · -- the clock is past the lifetime, so the key is in the table
      rw [if_neg hexpired]
      obtain ⟨t, ht⟩ : ∃ t, seen key = some t := by
        refine ne_none_iff_exists'.mp fun hnone => hexpired ?_
        rw [hnone, getD_none]
        omega
      rw [ht, getD_some] at hexpired ⊢
      refine ⟨0, ?_, by simp, ?_⟩
      · rw [← ht, update_eq_self]
        simp
      · rintro k hk
        obtain rfl : key = k := by simpa using hk
        exact ⟨by simp, t, ht, by omega⟩

theorem arrive_eq (h : lifetime < now) (s : State K) (key : K) :
    ∃ n, (arrive lifetime s (now, key)).queue = s.queue.drop n ++ [key] ∧
      (∀ k, (arrive lifetime s (now, key)).seen k =
        if k ∈ s.queue.take n then (if k = key then some now else none)
        else if k = key then some ((s.seen k).getD now) else s.seen k) ∧
      (∀ k ∈ s.queue.take n, ∀ t ∈ s.seen k, t + lifetime < now) ∧
      ∀ k ∈ (s.queue.drop n).head?, k ∉ s.queue.take n ∧
        ∃ t, s.seen k = some t ∧ now ≤ t + lifetime := by
  obtain ⟨n, hforget, htake, hhead⟩ := forget_eq h s.seen s.queue
  refine ⟨n, ?_, fun k => ?_, htake, hhead⟩
  · rw [arrive, remember, hforget]
  · rw [arrive, remember, hforget]
    dsimp only
    by_cases hk : k = key
    · subst hk
      rw [update_self]
      by_cases hmem : k ∈ s.queue.take n <;> simp [hmem]
    · simp [hk]

/-! ### The table and the queue -/

theorem seen_arrive_self (h : lifetime < now) (hs : s.seen key = none) :
    (arrive lifetime s (now, key)).seen key = some now := by
  obtain ⟨n, -, hseen, -⟩ := arrive_eq h s key
  rw [hseen, if_pos rfl, if_pos rfl, hs, getD_none, ite_self]

theorem seen_arrive {k : K} {t : ℤ} (h : lifetime < now) (hs : s.seen k = some t)
    (hle : now ≤ t + lifetime) : (arrive lifetime s (now, key)).seen k = some t := by
  obtain ⟨n, -, hseen, htake, -⟩ := arrive_eq h s key
  have hnot : k ∉ s.queue.take n := fun hmem => absurd (htake k hmem t hs) (not_lt.mpr hle)
  rw [hseen, if_neg hnot, hs, getD_some, ite_self]

variable {arrivals : List (ℤ × K)}

theorem seen_run {k : K} {t : ℤ} (hs : s.seen k = some t)
    (h : ∀ a ∈ arrivals, lifetime < a.1 ∧ a.1 ≤ t + lifetime) :
    (Run.run (arrive lifetime) s arrivals).seen k = some t := by
  induction arrivals generalizing s with
  | nil => exact hs
  | cons a arrivals ih =>
    obtain ⟨⟨hlt, hle⟩, hrest⟩ := forall_mem_cons.mp h
    exact ih (seen_arrive hlt hs hle) hrest

/-- A remembered key is in the queue, and the keys in the queue have come. -/
structure Tracked (came : List K) (s : State K) : Prop where
  queued : ∀ k, s.seen k ≠ none → k ∈ s.queue
  came : s.queue ⊆ came

omit [DecidableEq K] in
theorem tracked_empty : Tracked [] (empty : State K) :=
  ⟨fun _ h => absurd rfl h, nil_subset _⟩

theorem Tracked.arrive {came : List K} (hs : Tracked came s) (h : lifetime < now) (key : K) :
    Tracked (came ++ [key]) (arrive lifetime s (now, key)) := by
  obtain ⟨n, hqueue, hseen, -⟩ := arrive_eq h s key
  constructor
  · intro k hk
    rw [hqueue, mem_append, mem_singleton]
    by_cases hkey : k = key
    · exact .inr hkey
    · rw [hseen, if_neg hkey, if_neg hkey] at hk
      have hnot : k ∉ s.queue.take n := fun hmem => hk (if_pos hmem)
      rw [if_neg hnot] at hk
      have hmem := hs.queued k hk
      rw [← take_append_drop n s.queue, mem_append] at hmem
      exact .inl (hmem.resolve_left hnot)
  · rw [hqueue]
    refine append_subset.mpr ⟨fun k hk => ?_, subset_append_right _ _⟩
    exact mem_append_left _ (hs.came (mem_of_mem_drop hk))

theorem Tracked.run {came : List K} (hs : Tracked came s) (h : ∀ a ∈ arrivals, lifetime < a.1) :
    Tracked (came ++ arrivals.map Prod.snd) (Run.run (RecentKeys.arrive lifetime) s arrivals) := by
  induction arrivals generalizing s came with
  | nil => simpa using hs
  | cons a arrivals ih =>
    obtain ⟨hlt, hrest⟩ := forall_mem_cons.mp h
    have hrun := ih (hs.arrive hlt a.2) hrest
    rwa [append_assoc, singleton_append] at hrun

/-! ### Forgetting -/

def after (lifetime : ℤ) (s : State K) (arrivals : ℕ → ℤ × K) : ℕ → State K
  | 0 => s
  | n + 1 => arrive lifetime (after lifetime s arrivals n) (arrivals n)

theorem idxOf_arrive {k : K} {t : ℤ} (hlifetime : 0 ≤ lifetime) (h : lifetime < now)
    (hs : s.seen k = some t) (hs' : (arrive lifetime s (now, key)).seen k = some t)
    (hmem : k ∈ s.queue) :
    ∃ n, (arrive lifetime s (now, key)).queue = s.queue.drop n ++ [key] ∧
      k ∈ (arrive lifetime s (now, key)).queue ∧
      s.queue.idxOf k = n + (arrive lifetime s (now, key)).queue.idxOf k ∧
      (n = 0 → ∀ x ∈ s.queue.head?, ∃ u, s.seen x = some u ∧ now ≤ u + lifetime ∧
        (arrive lifetime s (now, key)).seen x = some u) := by
  obtain ⟨n, hqueue, hseen, htake, hhead⟩ := arrive_eq h s key
  have hnot : k ∉ s.queue.take n := by
    intro hin
    have hover := htake k hin t hs
    rw [hseen, if_pos hin] at hs'
    split_ifs at hs'
    obtain rfl := some.inj hs'
    omega
  have hdrop : k ∈ s.queue.drop n := by
    rw [← take_append_drop n s.queue, mem_append] at hmem
    exact hmem.resolve_left hnot
  refine ⟨n, hqueue, ?_, ?_, fun hzero x hx => ?_⟩
  · rw [hqueue]
    exact mem_append_left _ hdrop
  · have hlength : (s.queue.take n).length = n := by
      rw [length_take]
      have hpos := length_pos_of_mem hdrop
      rw [length_drop] at hpos
      omega
    rw [hqueue, idxOf_append_of_mem hdrop]
    nth_rewrite 1 [← take_append_drop n s.queue]
    rw [idxOf_append_of_notMem hnot, hlength]
  · subst hzero
    obtain ⟨-, u, hu, hle⟩ := hhead x hx
    refine ⟨u, hu, hle, ?_⟩
    rw [hseen, take_zero, if_neg (not_mem_nil), hu, getD_some, ite_self]

theorem exists_seen_ne (arrivals : ℕ → ℤ × K) (hlifetime : 0 ≤ lifetime)
    (hclock : ∀ n, lifetime < (arrivals n).1)
    (hforever : ∀ T, ∃ m, ∀ n, m ≤ n → T < (arrivals n).1) {k : K} (hmem : k ∈ s.queue) (t : ℤ) :
    ∃ n, (after lifetime s arrivals n).seen k ≠ some t := by
  by_contra hall
  simp only [not_exists, not_not] at hall
  have hqueued : ∀ n, k ∈ (after lifetime s arrivals n).queue := by
    intro n
    induction n with
    | zero => exact hmem
    | succ n ih =>
      obtain ⟨_, -, hin, -⟩ := idxOf_arrive hlifetime (hclock n) (hall n) (hall (n + 1)) ih
      exact hin
  have hstep := fun n =>
    idxOf_arrive hlifetime (hclock n) (hall n) (hall (n + 1)) (hqueued n)
  -- from some arrival on, the place of the key in the queue does not change
  let place := fun n => (after lifetime s arrivals n).queue.idxOf k
  have hmin : ∀ n, place (Function.argmin place) ≤ place n := fun n => Function.argmin_le place n
  generalize Function.argmin place = m at hmin
  have hfixed : ∀ n, m ≤ n → place n = place m := by
    intro n hn
    induction n, hn using Nat.le_induction with
    | base => rfl
    | succ n _ ih =>
      obtain ⟨_, -, -, hplace, -⟩ := hstep n
      have hle := hmin (n + 1)
      change place n = _ + place (n + 1) at hplace
      omega
  have hnone : ∀ n, m ≤ n → (after lifetime s arrivals (n + 1)).queue =
        (after lifetime s arrivals n).queue ++ [(arrivals n).2] ∧
      ∀ x ∈ (after lifetime s arrivals n).queue.head?, ∃ u,
        (after lifetime s arrivals n).seen x = some u ∧ (arrivals n).1 ≤ u + lifetime ∧
          (after lifetime s arrivals (n + 1)).seen x = some u := by
    intro n hn
    obtain ⟨d, hqueue, -, hplace, hhead⟩ := hstep n
    have hzero : d = 0 := by
      have h₁ := hfixed n hn
      have h₂ := hfixed (n + 1) (by omega)
      change place n = d + place (n + 1) at hplace
      omega
    subst hzero
    exact ⟨hqueue, hhead rfl⟩
  -- so the key at the front stays, and its time would never be over
  obtain ⟨x, rest, hfront⟩ := exists_cons_of_ne_nil (ne_nil_of_mem (hqueued m))
  obtain ⟨u, hu, -⟩ := (hnone m le_rfl).2 x (by rw [hfront]; rfl)
  have hstays : ∀ n, m ≤ n → (after lifetime s arrivals n).queue.head? = some x ∧
      (after lifetime s arrivals n).seen x = some u := by
    intro n hn
    induction n, hn using Nat.le_induction with
    | base => exact ⟨by rw [hfront]; rfl, hu⟩
    | succ n hn ih =>
      obtain ⟨hqueue, hhead⟩ := hnone n hn
      obtain ⟨v, hv, -, hv'⟩ := hhead x ih.1
      obtain rfl : v = u := some.inj (hv.symm.trans ih.2)
      refine ⟨?_, hv'⟩
      rw [hqueue, head?_append, ih.1]
      rfl
  obtain ⟨m', hm'⟩ := hforever (u + lifetime)
  obtain ⟨v, hv, hle, -⟩ := (hnone (max m m') (le_max_left _ _)).2 x
    (hstays _ (le_max_left _ _)).1
  obtain rfl : v = u := some.inj (hv.symm.trans (hstays _ (le_max_left _ _)).2)
  exact absurd hle (not_le.mpr (hm' _ (le_max_right _ _)))

end RecentKeys
