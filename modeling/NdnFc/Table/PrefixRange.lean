import NdnFc.Name.CanonicalOrder
import NdnFc.Table.ContentStore

/-!
# Entries of the Content Store under a prefix

The Content Store orders and searches full names (`NFD-FC/daemon/table/cs-entry.cpp`) by the name
without a final digest, and then by the digest. This is not the canonical order. The range of a
prefix that ends with a digest (`Cs::findPrefixRange`, `cs.cpp`, lines 91 to 100) misses the packets
whose names go on after the digest, and that of a prefix with the last digest takes in the packets
whose names go on after any digest.
-/

namespace NdnFc

namespace ContentStore

open Component List SortedTable

/-! ### One order -/

def queryKey (name : Name) : Name × Option Component :=
  match name.getLast? with
  | some last => if last.isImplicitSha256Digest then (name.dropLast, some last) else (name, none)
  | none => (name, none)

/-- The order of full names. -/
def fullCompare (a b : Name) : Ordering :=
  (Name.compare (queryKey a).1 (queryKey b).1).then (compare (queryKey a).2 (queryKey b).2)

instance : Std.TransCmp fullCompare :=
  inferInstanceAs (Std.TransCmp
    (compareLex (compareOn fun name => (queryKey name).1) (compareOn fun name => (queryKey name).2)))

theorem queryKey_append_digest {p : Name} {c : Component} (hc : c.isImplicitSha256Digest) :
    queryKey (p ++ [c]) = (p, some c) := by
  rw [queryKey, getLast?_concat]
  simp only [hc, if_true, dropLast_concat]

theorem queryKey_of_not_endsWithDigest {name : Name} (h : name.endsWithDigest = false) :
    queryKey name = (name, none) := by
  rw [queryKey]
  split
  next last hlast =>
    have hnot : last.isImplicitSha256Digest = false := by
      simpa [Name.endsWithDigest, hlast] using h
    rw [hnot, if_neg Bool.false_ne_true]
  next => rfl

variable [Sha256]

theorem isImplicitSha256Digest_digestOf (d : DataPacket) : (digestOf d).isImplicitSha256Digest :=
  Name.isImplicitSha256Digest_implicitDigest d.wire

theorem queryKey_getFullName (d : DataPacket) : queryKey d.getFullName = (d.name, some (digestOf d)) :=
  queryKey_append_digest (isImplicitSha256Digest_digestOf d)

theorem compareDataWithData_eq_fullCompare (lhs rhs : DataPacket) :
    compareDataWithData lhs rhs = fullCompare lhs.getFullName rhs.getFullName := by
  rw [fullCompare, queryKey_getFullName, queryKey_getFullName]
  rfl

theorem compareQueryWithData_eq_fullCompare (queryName : Name) (d : DataPacket) :
    compareQueryWithData queryName d = fullCompare queryName d.getFullName := by
  rw [fullCompare, queryKey_getFullName]
  by_cases h : queryName.endsWithDigest
  · obtain ⟨c, hc, hX⟩ := Name.eq_stripDigest_append h
    rw [hX, queryKey_append_digest hc, compareQueryWithData, getLast?_concat]
    simp only [hc, if_true, dropLast_concat]
    rfl
  · rw [Bool.not_eq_true] at h
    rw [queryKey_of_not_endsWithDigest h, compareQueryWithData]
    split
    next last hlast =>
      have hnot : last.isImplicitSha256Digest = false := by
        simpa [Name.endsWithDigest, hlast] using h
      rw [hnot, if_neg Bool.false_ne_true]
      rfl
    next => rfl

/-! ### Successors of digests -/

omit [Sha256] in
theorem digest_iff {c : Component} :
    c.isImplicitSha256Digest ↔ c.type = 1 ∧ c.value.length = digestSize := by
  rw [isImplicitSha256Digest, Bool.and_eq_true, beq_iff_eq, beq_iff_eq]

omit [Sha256] in
theorem getSuccessor_digest_cases {c c' : Component} (hc : c.isImplicitSha256Digest)
    (hnext : c.getSuccessor = .ok c') :
    (c'.isImplicitSha256Digest = true ∧ BigEndian.toNat c.value + 1 ≠ 256 ^ digestSize) ∨
      (c'.isImplicitSha256Digest = false ∧ BigEndian.toNat c.value + 1 = 256 ^ digestSize ∧
        c'.type = 2 ∧ c'.value = List.replicate digestSize 0) := by
  obtain ⟨htype, hlength⟩ := digest_iff.mp hc
  rcases getSuccessor_cases hnext with
    ⟨ht, hlen, hnat⟩ | ⟨hfull, ⟨hother, -⟩ | ⟨-, ht, hv⟩⟩
  · refine .inl ⟨digest_iff.mpr ⟨ht.trans htype, hlen.trans hlength⟩, ?_⟩
    have hlt := BigEndian.toNat_lt c'.value
    rw [hlen, hlength] at hlt
    omega
  · exact absurd (congrArg typeRules htype) (hother _ _)
  · rw [htype] at ht hv
    refine .inr ⟨?_, hlength ▸ hfull, ht, hv⟩
    rw [Bool.eq_false_iff, Ne, digest_iff, ht]
    omega

/-! ### The range of a prefix -/

variable {e : Entry} {p : Name} {c c' : Component}

theorem isPrefix_getFullName_iff :
    p ++ [c] <+: e.data.getFullName ↔
      p ++ [c] <+: e.data.name ∨ e.data.name = p ∧ digestOf e.data = c := by
  rw [DataPacket.getFullName, prefix_concat_iff, or_comm]
  refine or_congr_right ⟨fun h => ?_, ?_⟩
  · obtain ⟨hname, hdigest⟩ := append_inj' h rfl
    exact ⟨hname.symm, (singleton_inj.mp hdigest).symm⟩
  · rintro ⟨hname, hdigest⟩
    rw [← hname, ← hdigest, digestOf]

theorem inSearchRange_iff (hnext : c.getSuccessor = .ok c') :
    InSearchRange (p ++ [c]) e ↔ ¬ e.isBelow (p ++ [c]) ∧ e.isBelow (p ++ [c']) := by
  have hsucc : (p ++ [c]).getSuccessor = .ok (p ++ [c']) :=
    Name.getSuccessor_append_singleton_eq_ok_iff.mpr ⟨c', hnext, rfl⟩
  rw [InSearchRange, hsucc]
  simp

omit [Sha256] in
theorem accepted_of_digest (hc : c.isImplicitSha256Digest) : c.Accepted := by
  obtain ⟨htype, hlength⟩ := digest_iff.mp hc
  rw [accepted_iff, htype]
  exact ⟨by decide, if_pos hlength⟩

theorem inSearchRange_other (hc : c.isImplicitSha256Digest = false)
    (hnext : c.getSuccessor = .ok c') :
    InSearchRange (p ++ [c]) e ↔ ∃ x, p ++ [x] <+: e.data.name ∧
      (Component.compare c x).isLE ∧ Component.compare x c' = .lt := by
  have hc' : c'.isImplicitSha256Digest = false := by
    rw [Bool.eq_false_iff]
    intro hd
    rw [isImplicitSha256Digest_of_getSuccessor hnext hd] at hc
    cases hc
  rw [inSearchRange_iff hnext, isBelow_iff (by simpa using hc), isBelow_iff (by simpa using hc'),
    ← LexOrder.compareLex_between_iff, ← Name.compare, Ordering.isLE_iff_ne_gt]
  exact and_congr_right fun _ => Std.OrientedCmp.gt_iff_lt

theorem inSearchRange_digest (hc : c.isImplicitSha256Digest) (hnext : c.getSuccessor = .ok c')
    (hc' : c'.isImplicitSha256Digest) :
    InSearchRange (p ++ [c]) e ↔ e.data.name = p ∧ digestOf e.data = c := by
  rw [inSearchRange_iff hnext, isBelow_digest_iff hc, isBelow_digest_iff hc']
  change ¬ (Name.compare p e.data.name).then (Component.compare c (digestOf e.data)) = .gt ∧
    (Name.compare p e.data.name).then (Component.compare c' (digestOf e.data)) = .gt ↔ _
  have hself : Name.compare p p = .eq := Std.ReflCmp.compare_self
  cases hcmp : Name.compare p e.data.name with
  | lt =>
    refine iff_of_false (fun h => by cases h.2) fun h => ?_
    rw [h.1, hself] at hcmp
    cases hcmp
  | gt =>
    refine iff_of_false (fun h => h.1 rfl) fun h => ?_
    rw [h.1, hself] at hcmp
    cases hcmp
  | eq =>
    obtain rfl := Std.LawfulEqCmp.eq_of_compare hcmp
    rw [Ordering.eq_then, Ordering.eq_then, ← Ordering.isLE_iff_ne_gt, Std.OrientedCmp.gt_iff_lt]
    constructor
    · rintro ⟨hle, hlt⟩
      exact ⟨rfl, eq_of_between_getSuccessor_of_accepted hnext (accepted_of_digest hc)
        (accepted_of_digest (isImplicitSha256Digest_digestOf e.data)) hle hlt⟩
    · rintro ⟨-, rfl⟩
      exact ⟨Std.ReflCmp.isLE_rfl, compare_getSuccessor hnext⟩

theorem inSearchRange_lastDigest (hc : c.isImplicitSha256Digest)
    (hnext : c.getSuccessor = .ok c') (hc' : c'.isImplicitSha256Digest = false) :
    InSearchRange (p ++ [c]) e ↔ (e.data.name = p ∧ digestOf e.data = c) ∨
      ∃ x, p ++ [x] <+: e.data.name ∧ Component.compare x c' = .lt := by
  have hdigest := isImplicitSha256Digest_digestOf e.data
  obtain ⟨-, -, htype, -⟩ := (getSuccessor_digest_cases hc hnext).resolve_left fun h => by
    rw [hc'] at h
    cases h.1
  -- every digest is before the successor
  have hbefore : Component.compare (digestOf e.data) c' = .lt := by
    rw [compare_eq_lt_iff, htype, (digest_iff.mp hdigest).1]
    exact .inl (by decide)
  have hself : Name.compare p p = .eq := Std.ReflCmp.compare_self
  have hunder : (∃ x, p ++ [x] <+: e.data.name ∧ Component.compare x c' = .lt) ↔
      Name.compare p e.data.name = .lt ∧ Name.compare e.data.name (p ++ [c']) = .lt :=
    LexOrder.compareLex_under_iff.symm
  rw [inSearchRange_iff hnext, isBelow_digest_iff hc, isBelow_iff (by simpa using hc'), hunder]
  change ¬ (Name.compare p e.data.name).then (Component.compare c (digestOf e.data)) = .gt ∧ _ ↔ _
  cases hcmp : Name.compare p e.data.name with
  | lt =>
    constructor
    · rintro ⟨-, hgt⟩
      exact .inr ⟨rfl, Std.OrientedCmp.lt_of_gt hgt⟩
    · rintro (⟨hname, -⟩ | ⟨-, hlt⟩)
      · rw [hname, hself] at hcmp
        cases hcmp
      · exact ⟨by simp, Std.OrientedCmp.gt_of_lt hlt⟩
  | gt =>
    refine iff_of_false (fun h => h.1 rfl) ?_
    rintro (⟨hname, -⟩ | ⟨hlt, -⟩)
    · rw [hname, hself] at hcmp
      cases hcmp
    · cases hlt
  | eq =>
    obtain rfl := Std.LawfulEqCmp.eq_of_compare hcmp
    rw [Ordering.eq_then, ← Ordering.isLE_iff_ne_gt]
    constructor
    · rintro ⟨hle, -⟩
      exact .inl ⟨rfl, eq_of_between_getSuccessor_of_accepted hnext
        (accepted_of_digest hc) (accepted_of_digest hdigest) hle hbefore⟩
    · rintro (⟨-, rfl⟩ | ⟨hlt, -⟩)
      · refine ⟨Std.ReflCmp.isLE_rfl, Std.OrientedCmp.gt_of_lt ?_⟩
        exact LexOrder.compareLex_of_isPrefix_of_ne (prefix_append _ _) (by simp)
      · cases hlt

/-! ### What must be stored -/

/-- The component `x` in place of the last component `c` of a prefix, whose successor is `c'`, does
not make the range of the prefix wrong. -/
def Fits (c c' x : Component) : Prop :=
  if c.isImplicitSha256Digest then
    if c'.isImplicitSha256Digest then x ≠ c else Component.compare x c' = .lt → x = c
  else (Component.compare c x).isLE → Component.compare x c' = .lt → x = c

omit [Sha256] in
theorem eq_of_isPrefix {n : Name} {x y : Component} (hx : p ++ [x] <+: n) (hy : p ++ [y] <+: n) :
    x = y := by
  have heq := (prefix_of_prefix_length_le hx hy (by simp)).eq_of_length (by simp)
  exact singleton_inj.mp (append_inj' heq rfl).2

theorem inSearchRange_iff_isPrefix_iff (hnext : c.getSuccessor = .ok c') :
    (InSearchRange (p ++ [c]) e ↔ p ++ [c] <+: e.data.getFullName) ↔
      ∀ x, p ++ [x] <+: e.data.name → Fits c c' x := by
  have hlt := compare_getSuccessor hnext
  -- the name of the packet without its digest does not go on
  have hends : e.data.name = p ∧ digestOf e.data = c → ∀ x, ¬ p ++ [x] <+: e.data.name := by
    rintro ⟨hname, -⟩ x hx
    have hlen := hx.length_le
    rw [hname, length_append, length_singleton] at hlen
    omega
  rw [isPrefix_getFullName_iff]
  by_cases hc : c.isImplicitSha256Digest
  · by_cases hc' : c'.isImplicitSha256Digest
    · rw [inSearchRange_digest hc hnext hc']
      simp only [Fits, hc, hc', if_true]
      constructor
      · rintro h x hx rfl
        exact hends (h.mpr (.inl hx)) x hx
      · intro h
        exact ⟨.inr, fun h' => h'.resolve_left fun hp => h c hp rfl⟩
    · rw [Bool.not_eq_true] at hc'
      rw [inSearchRange_lastDigest hc hnext hc']
      simp only [Fits, hc, hc', if_true, Bool.false_eq_true, if_false]
      constructor
      · intro h x hx hxlt
        rcases h.mp (.inr ⟨x, hx, hxlt⟩) with hp | hend
        · exact eq_of_isPrefix hx hp
        · exact absurd hx (hends hend x)
      · refine fun h => ⟨?_, ?_⟩
        · rintro (hend | ⟨x, hx, hxlt⟩)
          · exact .inr hend
          · exact .inl (h x hx hxlt ▸ hx)
        · rintro (hp | hend)
          · exact .inr ⟨c, hp, hlt⟩
          · exact .inl hend
  · rw [Bool.not_eq_true] at hc
    rw [inSearchRange_other hc hnext]
    simp only [Fits, hc, Bool.false_eq_true, if_false]
    have hnot : digestOf e.data ≠ c := by
      rintro rfl
      rw [isImplicitSha256Digest_digestOf] at hc
      cases hc
    constructor
    · intro h x hx hle hxlt
      rcases h.mp ⟨x, hx, hle, hxlt⟩ with hp | hend
      · exact eq_of_isPrefix hx hp
      · exact absurd hend.2 hnot
    · refine fun h => ⟨?_, ?_⟩
      · rintro ⟨x, hx, hle, hxlt⟩
        exact .inl (h x hx hle hxlt ▸ hx)
      · rintro (hp | hend)
        · exact ⟨c, hp, Std.ReflCmp.isLE_rfl, hlt⟩
        · exact absurd hend.2 hnot

/-- The comparisons are in one order, the range of a prefix holds the full names under it, and an
erasure takes as many of them as there are, up to its limit. -/
structure TableOrder (cs : ContentStore) (X : Name) : Prop where
  trans : Std.TransCmp fullCompare
  entries : ∀ lhs rhs : DataPacket,
    compareDataWithData lhs rhs = fullCompare lhs.getFullName rhs.getFullName
  queries : ∀ (queryName : Name) (d : DataPacket),
    compareQueryWithData queryName d = fullCompare queryName d.getFullName
  range : ∃ first last, cs.findPrefixRange X = .ok (first, last) ∧
    ∀ e, e ∈ range first last cs.table ↔ e ∈ cs.table ∧ X <+: e.data.getFullName
  erase : ∀ limit, ∃ cs' erased, cs.erase X limit = .ok cs' ∧
    (erased ++ cs'.table).Perm cs.table ∧
    erased.length = min limit (cs.table.countP fun e => X <+: e.data.getFullName) ∧
    ∀ e ∈ erased, X <+: e.data.getFullName

/-- The names of the stored packets do not make the range of the prefix wrong. -/
def StoresFitting (cs : ContentStore) (X : Name) : Prop :=
  X = [] ∨ ∃ p c c', X = p ++ [c] ∧ c.getSuccessor = .ok c' ∧
    ∀ e ∈ cs.table, ∀ x, p ++ [x] <+: e.data.name → Fits c c' x

variable {cs : ContentStore} {X : Name} {first last : ℕ}

theorem bounds_of_findPrefixRange (h : cs.findPrefixRange X = .ok (first, last)) :
    last ≤ cs.table.length ∧ (X = [] ∨ ∃ next, X.getSuccessor = .ok next) := by
  unfold findPrefixRange at h
  by_cases hX : X = []
  · rw [if_pos hX] at h
    cases h
    exact ⟨Nat.le_refl _, .inl hX⟩
  · rw [if_neg hX] at h
    obtain ⟨next, hnext, hbounds⟩ := Fallible.bind_eq_ok_iff.mp h
    cases hbounds
    exact ⟨findIdx_le_length, .inr ⟨next, hnext⟩⟩

theorem exists_erase (h : cs.Inv) (hrange : cs.findPrefixRange X = .ok (first, last))
    (hmem : ∀ e, e ∈ range first last cs.table ↔ e ∈ cs.table ∧ X <+: e.data.getFullName)
    (limit : ℕ) :
    ∃ cs' erased, cs.erase X limit = .ok cs' ∧ (erased ++ cs'.table).Perm cs.table ∧
      erased.length = min limit (cs.table.countP fun e => X <+: e.data.getFullName) ∧
      ∀ e ∈ erased, X <+: e.data.getFullName := by
  have hlast := (bounds_of_findPrefixRange hrange).1
  have hcount : (cs.table.countP fun e => X <+: e.data.getFullName) = last - first := by
    refine countP_eq_of_mem_range_iff ((nodup_keys h).of_map _) hlast fun e => ?_
    rw [hmem e, decide_eq_true_eq]
  let nErased := min limit (last - first)
  refine ⟨{ cs with table := cs.table.take first ++ cs.table.drop (first + nErased) },
    (range first last cs.table).take nErased, ?_, perm_erase_range hlast (Nat.min_le_right limit _), ?_, fun e he => ?_⟩
  · unfold erase
    rw [hrange]
    rfl
  · rw [hcount, length_take, length_range hlast]
    omega
  · exact ((hmem e).mp (mem_of_mem_take he)).2

theorem exists_range_iff_forall (h : cs.Inv) :
    (∃ first last, cs.findPrefixRange X = .ok (first, last) ∧
      ∀ e, e ∈ range first last cs.table ↔ e ∈ cs.table ∧ X <+: e.data.getFullName) ↔
      (X = [] ∨ ∃ next, X.getSuccessor = .ok next) ∧
        ∀ e ∈ cs.table, InSearchRange X e ↔ X <+: e.data.getFullName := by
  rcases findPrefixRange_cases h X with
    ⟨first, last, hrange, hmem⟩ | ⟨hX, error, hnext, hrange⟩
  · constructor
    · rintro ⟨first', last', hrange', hmem'⟩
      cases hrange.symm.trans hrange'
      refine ⟨(bounds_of_findPrefixRange hrange).2, fun e he => ?_⟩
      have hiff := (hmem e).symm.trans (hmem' e)
      rwa [and_congr_right_iff, imp_iff_right he] at hiff
    · exact fun hiff => ⟨first, last, hrange,
        fun e => (hmem e).trans (and_congr_right (hiff.2 e))⟩
  · constructor
    · rintro ⟨first, last, hok, -⟩
      cases hrange.symm.trans hok
    · rintro ⟨hX' | ⟨next, hok⟩, -⟩
      · exact absurd hX' hX
      · cases hnext.symm.trans hok

theorem exists_range_iff (h : cs.Inv) :
    (∃ first last, cs.findPrefixRange X = .ok (first, last) ∧
      ∀ e, e ∈ range first last cs.table ↔ e ∈ cs.table ∧ X <+: e.data.getFullName) ↔
      cs.StoresFitting X := by
  rw [exists_range_iff_forall h]
  rcases eq_nil_or_concat' X with rfl | ⟨p, c, rfl⟩
  · exact iff_of_true ⟨.inl rfl, fun e _ => iff_of_true (.inl rfl) List.nil_prefix⟩ (.inl rfl)
  · constructor
    · rintro ⟨hX | ⟨next, hnext⟩, hiff⟩
      · exact absurd hX (by simp)
      · obtain ⟨c', hc', -⟩ := Name.getSuccessor_append_singleton_eq_ok_iff.mp hnext
        exact .inr ⟨p, c, c', rfl, hc', fun e he =>
          (inSearchRange_iff_isPrefix_iff hc').mp (hiff e he)⟩
    · rintro (hX | ⟨q, d, c', hX, hc', hfits⟩)
      · exact absurd hX (by simp)
      · obtain ⟨rfl, hcd⟩ := append_inj' hX rfl
        obtain rfl := singleton_inj.mp hcd
        exact ⟨.inr ⟨_, Name.getSuccessor_append_singleton_eq_ok_iff.mpr ⟨c', hc', rfl⟩⟩,
          fun e he => (inSearchRange_iff_isPrefix_iff hc').mpr (hfits e he)⟩

end ContentStore

end NdnFc
