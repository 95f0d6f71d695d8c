import NdnFc.Lib.Run
import NdnFc.Packet.Interest

/-!
# The Dead Nonce List

The forwarder remembers the nonces of Interests that have left the PIT in a queue of 64-bit hashes
of a Name and a nonce (`NFD-FC/daemon/table/dead-nonce-list.cpp`). From the number of marks between
them the capacity is adjusted, and what is over it is evicted. The hash is a parameter.
-/

namespace NdnFc

open List

/-- The queue, with the front first, its capacity, and the numbers of marks counted since the
capacity was adjusted. -/
structure DeadNonceList where
  queue : List UInt64
  capacity : ℕ
  actualMarkCounts : List ℕ
deriving DecidableEq

namespace DeadNonceList

/-- `DEFAULT_LIFETIME`, in nanoseconds. -/
def lifetime : ℤ := 6 * 10 ^ 9

/-- `MARK` -/
def markEntry : UInt64 := 0

def expectedMarkCount : ℕ := 5

def initialCapacity : ℕ := 2 ^ 7

def minCapacity : ℕ := 2 ^ 3

def maxCapacity : ℕ := 2 ^ 24

def evictLimit : ℕ := 2 ^ 6

/-- The constructor. -/
def create : DeadNonceList where
  queue := replicate expectedMarkCount markEntry
  capacity := initialCapacity
  actualMarkCounts := []

variable (l : DeadNonceList)

def evictEntries : DeadNonceList :=
  { l with queue := l.queue.drop (min (l.queue.length - l.capacity) evictLimit) }

def countMarks : ℕ :=
  l.queue.count markEntry

def mark : DeadNonceList :=
  let queue := l.queue ++ [markEntry]
  { l with queue, actualMarkCounts := queue.count markEntry :: l.actualMarkCounts }

/-- `adjustCapacity`: by a tenth down when there were always more marks than expected, by a fifth up
when there were always fewer. -/
def adjustCapacity : DeadNonceList :=
  let capacity :=
    if ∀ n ∈ l.actualMarkCounts, expectedMarkCount < n then max minCapacity (l.capacity * 9 / 10)
    else if ∀ n ∈ l.actualMarkCounts, n < expectedMarkCount then
      min maxCapacity (l.capacity * 6 / 5)
    else l.capacity
  evictEntries { l with capacity, actualMarkCounts := [] }

section

variable (cityHash : Bytes → Nonce → UInt64)

/-- `makeEntry`: the nonce is the seed of the hash. -/
def makeEntry (name : Name) (nonce : Nonce) : UInt64 :=
  cityHash name.wireEncode nonce

def has (l : DeadNonceList) (name : Name) (nonce : Nonce) : Bool :=
  l.queue.contains (makeEntry cityHash name nonce)

def add (name : Name) (nonce : Nonce) (l : DeadNonceList) : DeadNonceList :=
  evictEntries { l with queue := l.queue ++ [makeEntry cityHash name nonce] }

end

variable {cityHash : Bytes → Nonce → UInt64} {l : DeadNonceList} {entry : UInt64} {name : Name}
  {nonce : Nonce}

theorem has_iff : l.has cityHash name nonce ↔ makeEntry cityHash name nonce ∈ l.queue :=
  contains_iff_mem

theorem mem_queue_create (h : entry ∈ create.queue) : entry = markEntry :=
  eq_of_mem_replicate h

theorem mem_queue_add (h : entry ∈ (l.add cityHash name nonce).queue) :
    entry ∈ l.queue ∨ entry = makeEntry cityHash name nonce :=
  (mem_append.mp (mem_of_mem_drop h)).imp_right mem_singleton.mp

theorem mem_queue_mark (h : entry ∈ l.mark.queue) : entry ∈ l.queue ∨ entry = markEntry :=
  (mem_append.mp h).imp_right mem_singleton.mp

theorem mem_queue_adjustCapacity (h : entry ∈ l.adjustCapacity.queue) : entry ∈ l.queue :=
  mem_of_mem_drop h

/-! ### Retention -/

/-- The forwarder adds to the list; `mark` and `adjustCapacity` are called by timers. -/
inductive Op where
  | add (name : Name) (nonce : Nonce)
  | mark
  | adjustCapacity

variable (cityHash : Bytes → Nonce → UInt64) (l : DeadNonceList) (op : Op)

def step : Op → DeadNonceList
  | .add name nonce => l.add cityHash name nonce
  | .mark => l.mark
  | .adjustCapacity => l.adjustCapacity

/-- What an operation pushes to the back of the queue. -/
def Op.pushed : Op → List UInt64
  | add name nonce => [makeEntry cityHash name nonce]
  | mark => [markEntry]
  | adjustCapacity => []

/-- Entries are taken from the front of the queue, and not below the capacity. -/
def Evicts (queue : List UInt64) (l : DeadNonceList) : Prop :=
  ∃ n, l.queue = queue.drop n ∧ (n = 0 ∨ l.capacity ≤ l.queue.length)

variable {l}

theorem evicts_evictEntries (l : DeadNonceList) : Evicts l.queue l.evictEntries := by
  refine ⟨_, rfl, ?_⟩
  simp only [evictEntries, length_drop]
  omega

theorem evicts_step : Evicts (l.queue ++ op.pushed cityHash) (l.step cityHash op) := by
  cases op with
  | add name nonce => exact evicts_evictEntries { l with queue := _ }
  | mark => exact ⟨0, rfl, .inl rfl⟩
  | adjustCapacity =>
    rw [Op.pushed, append_nil]
    exact evicts_evictEntries { l with capacity := _, actualMarkCounts := [] }

theorem capacity_step_mem (h : l.capacity ∈ Set.Icc minCapacity maxCapacity) :
    (l.step cityHash op).capacity ∈ Set.Icc minCapacity maxCapacity := by
  cases op with
  | adjustCapacity =>
    obtain ⟨hmin, hmax⟩ := h
    have : minCapacity ≤ maxCapacity := by decide
    simp only [step, adjustCapacity, evictEntries, Set.mem_Icc]
    split_ifs <;> omega
  | _ => exact h

theorem capacity_run_mem (ops : List Op) (h : l.capacity ∈ Set.Icc minCapacity maxCapacity) :
    (Run.run (step cityHash) l ops).capacity ∈ Set.Icc minCapacity maxCapacity := by
  induction ops generalizing l with
  | nil => exact h
  | cons op ops ih => exact ih (capacity_step_mem cityHash op h)

/-- The last entries of the queue stay, with what is pushed, as long as they are no more than the
least capacity. -/
theorem suffix_run {back : List UInt64} (ops : List Op)
    (hcapacity : l.capacity ∈ Set.Icc minCapacity maxCapacity) (hback : back <:+ l.queue)
    (hlength : (back ++ ops.flatMap (Op.pushed cityHash)).length ≤ minCapacity) :
    back ++ ops.flatMap (Op.pushed cityHash) <:+ (Run.run (step cityHash) l ops).queue := by
  induction ops generalizing l back with
  | nil => simpa using hback
  | cons op ops ih =>
    have hstep := capacity_step_mem cityHash op hcapacity
    rw [flatMap_cons, ← append_assoc] at hlength ⊢
    refine ih hstep ?_ hlength
    have hboth : back ++ op.pushed cityHash <:+ l.queue ++ op.pushed cityHash := by
      obtain ⟨front, hfront⟩ := hback
      exact ⟨front, by rw [← hfront, append_assoc]⟩
    obtain ⟨n, hqueue, hn | hn⟩ := evicts_step cityHash op (l := l)
    · rw [hqueue, hn, drop_zero]
      exact hboth
    · refine suffix_of_suffix_length_le hboth (hqueue ▸ drop_suffix n _) ?_
      rw [length_append] at hlength
      exact (Nat.le_of_add_right_le hlength).trans (hstep.1.trans hn)

/-- In every run the capacity keeps to its bounds, each operation evicts the oldest entries down to
the capacity at most, and an added entry is found until enough entries have been pushed. -/
theorem run_retains (ops : List Op) :
    let l := Run.run (step cityHash) create ops
    (minCapacity ≤ l.capacity ∧ l.capacity ≤ maxCapacity) ∧
      (∀ op : Op, Evicts (l.queue ++ op.pushed cityHash) (l.step cityHash op)) ∧
      ∀ name nonce later, (later.flatMap (Op.pushed cityHash)).length < minCapacity →
        (Run.run (step cityHash) l (.add name nonce :: later)).has cityHash name nonce := by
  intro l
  have hcapacity : l.capacity ∈ Set.Icc minCapacity maxCapacity :=
    capacity_run_mem cityHash ops ⟨by decide, by decide⟩
  refine ⟨hcapacity, fun op => evicts_step cityHash op, fun name nonce later hlater => ?_⟩
  have hlength : ([] ++ (Op.add name nonce :: later).flatMap (Op.pushed cityHash)).length ≤
      minCapacity := by
    rw [nil_append, flatMap_cons, length_append, Nat.add_comm]
    exact hlater
  have hsuffix := suffix_run cityHash _ hcapacity List.nil_suffix hlength
  exact has_iff.mpr (hsuffix.mem (by simp [Op.pushed]))

end DeadNonceList

end NdnFc
