import Damov.Coherence.LineProtocol

/-!
# The line protocol preserves coherence

A transaction at a cache `p` rewrites the line of `p`, possibly the state of the
requesting child, and lowers whole subtrees of other children. `Coherent.edit`
reduces the preservation of the invariant by such a rewriting to the node `p`
and to the subtrees of its children, and each subtree is either untouched,
lowered as a whole or changed at its top only.
-/

noncomputable section

open scoped Classical
open Function List

namespace Damov.Coherence

variable {arity : Path → Nat} {s t : Slice} {p n m : Path} {i j : Nat}

/-! ## Suffixes -/

theorem suffix_cases (suffix : p <:+ m) : m = p ∨ ∃ j, (j :: p) <:+ m := by
  obtain ⟨front, rfl⟩ := suffix
  rcases eq_nil_or_concat front with rfl | ⟨rest, j, rfl⟩
  · exact .inl rfl
  · exact .inr ⟨j, rest, by simp⟩

theorem suffix_of_cons_suffix (suffix : (j :: p) <:+ m) : p <:+ m := (suffix_cons j p).trans suffix

theorem not_cons_suffix_self : ¬ (j :: p) <:+ p := by
  intro suffix
  have bound := suffix.length_le
  rw [length_cons] at bound
  omega

theorem cons_suffix_injective (left : (i :: p) <:+ m) (right : (j :: p) <:+ m) : i = j := by
  rcases suffix_or_suffix_of_suffix left right with suffix | suffix
  · exact (List.cons.inj (suffix.eq_of_length (by simp))).1
  · exact (List.cons.inj (suffix.eq_of_length (by simp))).1.symm

variable {targets : Finset Nat} {dirty : Bool} {type : AccessType} {state : MESIState}

theorem under_iff_of_suffix (suffix : (j :: p) <:+ m) : Under p targets m ↔ j ∈ targets := by
  constructor
  · rintro ⟨i, mem, other⟩
    rwa [cons_suffix_injective suffix other]
  · intro mem
    exact ⟨j, mem, suffix⟩

theorem ne_of_cons_suffix (suffix : (j :: p) <:+ m) : m ≠ p := by
  rintro rfl
  exact not_cons_suffix_self suffix

/-! ## Consequences of the invariant -/

namespace CoherentBelow

variable (ok : CoherentBelow arity s n)
include ok

/-- Inclusion along a whole path. -/
theorem valid_of_suffix (suffix : n <:+ m) (valid : (s m).state ≠ .I) : (s n).state ≠ .I := by
  induction m with
  | nil =>
    rwa [suffix_nil.mp suffix]
  | cons j m ih =>
    rcases suffix_cons_iff.mp suffix with eq | below
    · rwa [eq]
    · have sharer : j ∈ (s m).sharers := ((ok m below).sharer j).mpr valid
      exact ih below ((ok m below).inclusion j sharer)

/-- Exclusive permission along a whole path. -/
theorem exclusive_of_suffix (suffix : n <:+ m) (excl : (s m).state.isExclusive = true) :
    (s n).state.isExclusive = true := by
  induction m with
  | nil =>
    rwa [suffix_nil.mp suffix]
  | cons j m ih =>
    rcases suffix_cons_iff.mp suffix with eq | below
    · rwa [eq]
    · exact ih below ((ok m below).exclusive j excl).1

/-- Everything below an invalid cache is invalid and has no sharers. -/
theorem below_invalid (invalid : (s n).state = .I) (suffix : n <:+ m) : s m = ⟨.I, ∅, false⟩ := by
  have state : (s m).state = .I := by
    by_contra valid
    exact ok.valid_of_suffix suffix valid invalid
  have sharers := (ok m suffix).sharers_of_invalid state
  have owned : (s m).owned = false := by
    by_contra owned
    obtain ⟨owner, only, _⟩ := (ok m suffix).owner (Bool.not_eq_false _ ▸ owned)
    simp [sharers] at only
  exact Line.ext state sharers owned

/-- Below a cache without exclusive permission there is nothing to lower. -/
theorem lower_shared (shared : (s n).state.isExclusive = false) (suffix : n <:+ m) :
    (s m).lower .INVX = s m := by
  have notExclusive (k) (below : n <:+ k) : (s k).state.isExclusive = false := by
    by_contra exclusive
    rw [Bool.not_eq_false] at exclusive
    simp [ok.exclusive_of_suffix below exclusive] at shared
  apply Line.ext
  · have state := notExclusive m suffix
    cases eq : (s m).state <;> simp_all [Line.lower, MESIState.demote]
  · rfl
  · by_contra owned
    have isOwned : (s m).owned = true := by
      cases eq : (s m).owned
      · exact absurd eq.symm owned
      · rfl
    obtain ⟨i, _, childExcl⟩ := (ok m suffix).owner isOwned
    have childShared := notExclusive (i :: m) (suffix.trans (suffix_cons i m))
    simp [childShared] at childExcl

end CoherentBelow

namespace Coherent

variable (ok : Coherent arity s)
include ok

theorem valid_of_suffix (suffix : n <:+ m) (valid : (s m).state ≠ .I) : (s n).state ≠ .I :=
  (ok.toBelow n).valid_of_suffix suffix valid

theorem exclusive_of_suffix (suffix : n <:+ m) (excl : (s m).state.isExclusive = true) :
    (s n).state.isExclusive = true :=
  (ok.toBelow n).exclusive_of_suffix suffix excl

theorem below_invalid (invalid : (s n).state = .I) (suffix : n <:+ m) : s m = ⟨.I, ∅, false⟩ :=
  (ok.toBelow n).below_invalid invalid suffix

/-- An owner is the only valid child. -/
theorem eq_of_exclusive_child (excl : (s (i :: p)).state.isExclusive = true)
    (valid : (s (j :: p)).state ≠ .I) : j = i := by
  obtain ⟨owner, sharers, _⟩ := (ok p).owner ((ok p).exclusive i excl).2
  have memberI : i ∈ (s p).sharers := ((ok p).sharer i).mpr (MESIState.ne_I_of_isExclusive excl)
  have memberJ : j ∈ (s p).sharers := ((ok p).sharer j).mpr valid
  rw [sharers, Finset.mem_singleton] at memberI memberJ
  rw [memberJ, memberI]

/--
Single writer: a cache that holds the line is above or below every cache with
exclusive permission.
-/
theorem comparable_of_exclusive (excl : (s n).state.isExclusive = true)
    (valid : (s m).state ≠ .I) : n <:+ m ∨ m <:+ n := by
  induction n with
  | nil => exact .inl (nil_suffix)
  | cons i p ih =>
    have above := ((ok p).exclusive i excl).1
    rcases ih above with below | belowPath
    · rcases suffix_cases below with rfl | ⟨j, suffix⟩
      · exact .inr (suffix_cons i m)
      · have validChild := ok.valid_of_suffix suffix valid
        have eq := ok.eq_of_exclusive_child excl validChild
        rw [← eq]
        exact .inl suffix
    · exact .inr (belowPath.trans (suffix_cons i p))

/-- Dirty data below a cache needs exclusive permission in it. -/
theorem exclusive_of_dirtyUnder {targets : Finset Nat} (dirty : DirtyUnder s p targets) :
    (s p).state.isExclusive = true := by
  obtain ⟨m, ⟨i, _, suffix⟩, modified⟩ := dirty
  apply ok.exclusive_of_suffix (suffix_of_cons_suffix suffix)
  simp [modified]

/-! ## Local rewritings -/

/-- A rewriting of `p` and of what is below it. -/
theorem edit (node : NodeOk (arity p) (t p) (fun j => (t (j :: p)).state))
    (kind : p ≠ [] → ((t p).state = .I ↔ (s p).state = .I) ∧
      (t p).state.isExclusive = (s p).state.isExclusive)
    (below : ∀ j m, (j :: p) <:+ m → NodeOk (arity m) (t m) (fun i => (t (i :: m)).state))
    (outside : ∀ m, ¬ p <:+ m → t m = s m) :
    Coherent arity t := by
  intro n
  by_cases mem : p <:+ n
  · rcases suffix_cases mem with rfl | ⟨j, suffix⟩
    · exact node
    · exact below j n suffix
  rw [outside n mem]
  -- the only child of `n` that changed, if any, is `p` itself
  have childKind : ∀ j, ((t (j :: n)).state = .I ↔ (s (j :: n)).state = .I) ∧
      (t (j :: n)).state.isExclusive = (s (j :: n)).state.isExclusive := by
    intro j
    by_cases mem' : p <:+ j :: n
    · rcases suffix_cons_iff.mp mem' with eq | suffix
      · rw [← eq]
        exact kind (by simp [eq])
      · exact absurd suffix mem
    · rw [outside _ mem']
      exact ⟨Iff.rfl, rfl⟩
  exact {
    sharer := by
      intro j
      rw [(ok n).sharer j, ne_eq, ne_eq, (childKind j).1]
    inside := (ok n).inside
    inclusion := (ok n).inclusion
    exclusive := by
      intro j childExcl
      rw [(childKind j).2] at childExcl
      exact (ok n).exclusive j childExcl
    owner := by
      intro owned
      obtain ⟨j, sharers, childExcl⟩ := (ok n).owner owned
      exact ⟨j, sharers, (childKind j).2.trans childExcl⟩ }

/-- A subtree that did not change. -/
theorem below_same (same : ∀ m, (j :: p) <:+ m → t m = s m) (suffix : (j :: p) <:+ m) :
    NodeOk (arity m) (t m) (fun i => (t (i :: m)).state) := by
  rw [same m suffix]
  apply (ok m).congr
  intro i
  rw [same (i :: m) (suffix.trans (suffix_cons i m))]

/-- A subtree that was lowered as a whole. -/
theorem below_lowered (type : InvType) (lowered : ∀ m, (j :: p) <:+ m → t m = (s m).lower type)
    (suffix : (j :: p) <:+ m) :
    NodeOk (arity m) (t m) (fun i => (t (i :: m)).state) := by
  rw [lowered m suffix]
  apply (ok m).lower
  intro i
  refine ⟨s (i :: m), rfl, ?_⟩
  rw [lowered (i :: m) (suffix.trans (suffix_cons i m))]

variable {state : MESIState}

/-- A subtree in which only the state of the top cache changed. -/
theorem below_top (valid : (s (j :: p)).sharers ≠ ∅ → state ≠ .I)
    (excl : (s (j :: p)).owned = true → state.isExclusive = true)
    (top : t (j :: p) = (s (j :: p)).withState state)
    (same : ∀ m, (j :: p) <:+ m → m ≠ j :: p → t m = s m) (suffix : (j :: p) <:+ m) :
    NodeOk (arity m) (t m) (fun i => (t (i :: m)).state) := by
  have children (i) : (t (i :: m)).state = (s (i :: m)).state := by
    rw [same (i :: m) (suffix.trans (suffix_cons i m))]
    intro eq
    have shorter := suffix.length_le
    rw [← eq, length_cons] at shorter
    omega
  by_cases isTop : m = j :: p
  · subst isTop
    rw [top]
    exact ((ok _).setState valid excl).congr children
  · rw [same m suffix isTop]
    exact (ok m).congr children

/-- The state of one cache changed within its kind, as in `E` to `M`. -/
theorem setState (invalid : state = .I ↔ (s p).state = .I)
    (excl : state.isExclusive = (s p).state.isExclusive) :
    Coherent arity (update s p ((s p).withState state)) := by
  have child (j) : update s p ((s p).withState state) (j :: p) = s (j :: p) := by
    rw [update_of_ne (cons_ne_self j p)]
  apply ok.edit (p := p)
  · rw [update_self]
    have node : NodeOk (arity p) ((s p).withState state) (fun j => (s (j :: p)).state) := by
      apply (ok p).setState
      · intro sharers eq
        exact sharers ((ok p).sharers_of_invalid (invalid.mp eq))
      · intro owned
        obtain ⟨i, _, childExcl⟩ := (ok p).owner owned
        rw [excl]
        exact ((ok p).exclusive i childExcl).1
    apply node.congr
    intro j
    rw [child j]
  · intro _
    rw [update_self]
    exact ⟨invalid, excl⟩
  · intro j m suffix
    apply ok.below_same _ suffix
    intro m suffix
    rw [update_of_ne (ne_of_cons_suffix suffix)]
  · intro m outside
    rw [update_of_ne]
    rintro rfl
    exact outside suffix_rfl

/-- The state of the root changed, which no cache above it can see. -/
theorem setRoot (valid : (s []).sharers ≠ ∅ → state ≠ .I)
    (excl : (s []).owned = true → state.isExclusive = true) :
    Coherent arity (update s [] ((s []).withState state)) := by
  apply ok.edit (p := [])
  · apply ((ok []).setState valid excl).congr
    intro j
    rw [update_of_ne (cons_ne_nil j [])]
  · intro notRoot
    exact absurd rfl notRoot
  · intro j m suffix
    apply ok.below_same _ suffix
    intro m suffix
    rw [update_of_ne (ne_of_cons_suffix suffix)]
  · intro m outside
    exact absurd nil_suffix outside

end Coherent

/-! ## Transactions -/

section Transact

variable {type : InvType} {targets : Finset Nat} {line : Line} {state : MESIState}

theorem transact_self : transact type targets line state p i s p = line := by
  rw [transact, update_of_ne (cons_ne_self i p).symm, update_self]

/-- The line of `p` can be written after the transaction as well. -/
theorem transact_update_self {other : Line} :
    update (transact type targets line state p i s) p other =
      transact type targets other state p i s := by
  rw [transact, update_comm (cons_ne_self i p), update_idem]
  rfl

theorem transact_child :
    transact type targets line state p i s (i :: p) = (s (i :: p)).withState state := by
  rw [transact, update_self]

theorem transact_other (notSelf : m ≠ p) (notChild : m ≠ i :: p) :
    transact type targets line state p i s m = lowerUnder type p targets s m := by
  rw [transact, update_of_ne notChild, update_of_ne notSelf]

theorem transact_outside (outside : ¬ p <:+ m) :
    transact type targets line state p i s m = s m := by
  rw [transact_other, lowerUnder_of_not]
  · rintro ⟨j, _, suffix⟩
    exact outside (suffix_of_cons_suffix suffix)
  · rintro rfl
    exact outside suffix_rfl
  · rintro rfl
    exact outside (suffix_cons i p)

theorem transact_below_child (notTarget : i ∉ targets) (suffix : (i :: p) <:+ m)
    (notChild : m ≠ i :: p) :
    transact type targets line state p i s m = s m := by
  rw [transact_other (ne_of_cons_suffix suffix) notChild, lowerUnder_of_not]
  rwa [under_iff_of_suffix suffix]

theorem transact_sibling (other : j ≠ i) (suffix : (j :: p) <:+ m) :
    transact type targets line state p i s m = if j ∈ targets then (s m).lower type else s m := by
  rw [transact_other (ne_of_cons_suffix suffix), lowerUnder]
  · simp only [under_iff_of_suffix suffix]
  · rintro rfl
    exact other (cons_suffix_injective suffix suffix_rfl)

/-- The invariant of a transaction is an invariant of its parent and child. -/
theorem Coherent.transact (ok : Coherent arity s) (notTarget : i ∉ targets)
    (node : NodeOk (arity p) line (fun j =>
      if j = i then state
      else if j ∈ targets then ((s (j :: p)).lower type).state
      else (s (j :: p)).state))
    (invalid : line.state = .I ↔ (s p).state = .I)
    (excl : line.state.isExclusive = (s p).state.isExclusive)
    (childValid : (s (i :: p)).sharers ≠ ∅ → state ≠ .I)
    (childExcl : (s (i :: p)).owned = true → state.isExclusive = true) :
    Coherent arity (Coherence.transact type targets line state p i s) := by
  apply ok.edit (p := p)
  · rw [transact_self]
    apply node.congr
    intro j
    by_cases isChild : j = i
    · subst isChild
      rw [transact_child, if_pos rfl]
      rfl
    · rw [transact_sibling isChild suffix_rfl]
      split <;> rfl
  · intro _
    rw [transact_self]
    exact ⟨invalid, excl⟩
  · intro j m suffix
    by_cases isChild : j = i
    · subst isChild
      exact ok.below_top childValid childExcl transact_child (fun m suffix notChild =>
          transact_below_child notTarget suffix notChild)
        suffix
    by_cases isTarget : j ∈ targets
    · apply ok.below_lowered type _ suffix
      intro m suffix
      rw [transact_sibling isChild suffix, if_pos isTarget]
    · apply ok.below_same _ suffix
      intro m suffix
      rw [transact_sibling isChild suffix, if_neg isTarget]
  · intro m outside
    exact transact_outside outside

end Transact

theorem Coherent.serveGets (ok : Coherent arity s) (noexcl : Bool) (mem : i < arity p)
    (valid : (s p).state ≠ .I) (childInvalid : (s (i :: p)).state = .I) :
    Coherent arity (Coherence.serveGets noexcl p i s) := by
  have childLine := ok.below_invalid childInvalid suffix_rfl
  have absent : i ∉ (s p).sharers := by
    intro member
    exact ((ok p).sharer i).mp member childInvalid
  have childSharers : ∀ state : MESIState, (s (i :: p)).sharers ≠ ∅ → state ≠ .I := by
    simp [childLine]
  have childOwned : ∀ state : MESIState, (s (i :: p)).owned = true → state.isExclusive = true := by
    simp [childLine]
  have inside : ∀ j ∈ insert i (s p).sharers, j < arity p := by
    intro j member
    rcases Finset.mem_insert.mp member with rfl | member
    · exact mem
    · exact (ok p).inside j member
  unfold Coherence.serveGets
  split
  next grant =>
    -- nobody holds the line: the child gets it in `E` and owns it
    obtain ⟨sharers, exclusive, _⟩ := grant
    have others (j) : (s (j :: p)).state = .I := by
      apply (ok p).child_of_not_sharer (i := j)
      simp [sharers]
    refine ok.transact (by simp) ?_ Iff.rfl rfl (childSharers _) (childOwned _)
    exact {
      sharer := by simp [others]
      inside := by simpa using mem
      inclusion := by simp [valid]
      exclusive := by simp [exclusive]
      owner := by simp }
  next =>
    split
    next owned =>
      -- the owner is downgraded and both share the line
      obtain ⟨owner, sharers, ownerExclusive⟩ := (ok p).owner owned
      have exclusive := ((ok p).exclusive owner ownerExclusive).1
      refine ok.transact absent ?_ ?_ ?_ (childSharers _) (childOwned _)
      · exact
          { sharer := by
              intro j
              by_cases isChild : j = i
              · simp [isChild]
              by_cases member : j ∈ (s p).sharers
              · have childValid := ((ok p).sharer j).mp member
                simp [isChild, member, Line.lower, childValid]
              · have childInvalid := (ok p).child_of_not_sharer member
                simp [member, childInvalid]
            inside
            inclusion := by
              intro j _
              split
              · simp
              · exact valid
            exclusive := by
              intro j childExcl
              by_cases isChild : j = i
              · simp [isChild] at childExcl
              · by_cases member : j ∈ (s p).sharers
                · simp [isChild, member, Line.lower] at childExcl
                · have childInvalid := (ok p).child_of_not_sharer member
                  simp [isChild, member, childInvalid] at childExcl
            owner := by simp }
      · simp only
        split
        · simp [valid]
        · rfl
      · simp only
        split
        · simp [exclusive]
        · rfl
    next shared =>
      -- the line has sharers, or the cache itself is not exclusive
      rw [Bool.not_eq_true] at shared
      refine ok.transact (by simp) ?_ Iff.rfl rfl (childSharers _) (childOwned _)
      exact {
        sharer := by
          intro j
          by_cases isChild : j = i
          · simp [isChild]
          · simpa [isChild] using (ok p).sharer j
        inside
        inclusion := by
          intro j _
          exact valid
        exclusive := by
          intro j childExcl
          by_cases isChild : j = i
          · simp [isChild] at childExcl
          · have notExclusive := (ok p).child_not_exclusive shared j
            simp [isChild, notExclusive] at childExcl
        owner := by simp }

theorem Coherent.serveGetx (ok : Coherent arity s) (mem : i < arity p)
    (modified : (s p).state = .M) :
    Coherent arity (Coherence.serveGetx p i s) := by
  refine ok.transact (by simp) ?_ Iff.rfl rfl (by simp) (by simp)
  have others : ∀ j, j ≠ i → (if j ∈ (s p).sharers.erase i
        then ((s (j :: p)).lower .INV).state
        else (s (j :: p)).state) = .I := by
    intro j other
    by_cases member : j ∈ (s p).sharers
    · simp [other, member, Line.lower]
    · simp [member, (ok p).child_of_not_sharer member]
  exact {
    sharer := by
      intro j
      by_cases isChild : j = i
      · simp [isChild]
      · simpa [isChild] using others j isChild
    inside := by simpa using mem
    inclusion := by simp [modified]
    exclusive := by simp [modified]
    owner := by simp }

theorem Coherent.put (ok : Coherent arity s) (childValid : (s (i :: p)).state ≠ .I)
    (childSharers : (s (i :: p)).sharers = ∅)
    (exclusive : dirty = true → (s p).state.isExclusive = true) :
    Coherent arity (Coherence.put dirty p i s) := by
  have member : i ∈ (s p).sharers := ((ok p).sharer i).mpr childValid
  have valid : (s p).state ≠ .I := (ok p).inclusion i member
  have childOwned : (s (i :: p)).owned ≠ true := by
    intro owned
    obtain ⟨j, only, _⟩ := (ok (i :: p)).owner owned
    simp [childSharers] at only
  refine ok.transact (by simp) ?_ ?_ ?_
    (by simp [childSharers]) (fun owned => absurd owned childOwned)
  · exact
      { sharer := by
          intro j
          by_cases isChild : j = i
          · simp [isChild]
          · simpa [isChild] using (ok p).sharer j
        inside := by
          intro j memberErased
          exact (ok p).inside j (Finset.mem_of_mem_erase memberErased)
        inclusion := by
          intro j _
          split
          · simp
          · exact valid
        exclusive := by
          intro j childExcl
          by_cases isChild : j = i
          · simp [isChild] at childExcl
          · have owner : (s (j :: p)).state.isExclusive = true := by simpa [isChild] using childExcl
            exact absurd (ok.eq_of_exclusive_child owner childValid).symm isChild
        owner := by simp }
  · simp only
    split
    · simp [valid]
    · rfl
  · simp only
    split
    next isDirty => simp [exclusive isDirty]
    next => rfl

/-! ## Serving a request -/

/-- The requests that a child sends when it misses. -/
def AccessType.isGet : AccessType → Bool
  | .GETS => true
  | .GETX => true
  | _ => false

/-- A served child holds the line as requested. -/
def AccessType.served : AccessType → MESIState → Prop
  | .GETX, state => state = .M
  | _, state => state = .S ∨ state = .E

/-- What serving a miss of child `i` at `p` leaves of that child's subtree. -/
theorem serve_child (ok : Coherent arity s) (noexcl : Bool)
    (isMiss : type.misses (s (i :: p)).state = true) :
    ∃ state, type.served state ∧ serve type noexcl p i s (i :: p) = (s (i :: p)).withState state ∧
        ∀ m, (i :: p) <:+ m → m ≠ i :: p → serve type noexcl p i s m = s m := by
  by_cases isGetx : type = .GETX
  · subst isGetx
    refine ⟨.M, rfl, ?_, ?_⟩
    · exact transact_child
    · intro m suffix notChild
      exact transact_below_child (by simp) suffix notChild
  have childInvalid : (s (i :: p)).state = .I := by
    cases type <;> cases state : (s (i :: p)).state <;> simp_all [AccessType.misses]
  have absent : i ∉ (s p).sharers := by
    intro mem
    exact ((ok p).sharer i).mp mem childInvalid
  have shared (state) (isShared : (state = .S ∨ state = .E)) : type.served state := by
    cases type <;> simp_all [AccessType.served]
  simp only [serve, if_neg isGetx, serveGets]
  split
  · exact ⟨.E, shared _ (.inr rfl), transact_child, fun m suffix notChild =>
        transact_below_child (by simp) suffix notChild⟩
  · split
    · exact ⟨.S, shared _ (.inl rfl), transact_child, fun m suffix notChild =>
          transact_below_child absent suffix notChild⟩
    · exact ⟨.S, shared _ (.inl rfl), transact_child, fun m suffix notChild =>
          transact_below_child (by simp) suffix notChild⟩

/-- The state that a fetch leaves in the cache is enough for the request. -/
def AccessType.fetched : AccessType → MESIState → Prop
  | .GETX, state => state = .M
  | _, state => state ≠ .I

theorem AccessType.fetched_of_served (served : type.served state) : type.fetched state := by
  cases type <;> simp_all [AccessType.fetched] <;> rcases served with rfl | rfl <;> simp

theorem AccessType.fetched_hit (isGet : type.isGet = true) (isHit : type.misses state = false) :
    type.fetched (type.hit state) := by
  cases type <;> cases state <;> simp_all [AccessType.isGet, AccessType.misses, AccessType.hit,
      AccessType.fetched]

theorem AccessType.hit_kind (isGet : type.isGet = true) (isHit : type.misses state = false) :
    (type.hit state = .I ↔ state = .I) ∧ (type.hit state).isExclusive = state.isExclusive := by
  cases type <;> cases state <;> simp_all [AccessType.misses, AccessType.hit]

theorem Coherent.serve (ok : Coherent arity s) (noexcl : Bool)
    (isGet : type.isGet = true) (mem : i < arity p) (ready : type.fetched (s p).state)
    (isMiss : type.misses (s (i :: p)).state = true) :
    Coherent arity (Coherence.serve type noexcl p i s) := by
  cases type with
  | GETX =>
    exact ok.serveGetx mem ready
  | GETS =>
    apply ok.serveGets noexcl mem ready
    cases state : (s (i :: p)).state <;> simp_all [AccessType.misses]
  | _ => cases isGet

/-- A cache of the tree: every index on its path is a child index. -/
def InTree (arity : Path → Nat) : Path → Prop
  | [] => True
  | i :: p => i < arity p ∧ InTree arity p

/-- What a fetch into cache `n` guarantees. -/
structure Fetched
    (arity : Path → Nat) (type : AccessType) (n : Path) (before after : Slice) : Prop where
  coherent : Coherent arity after
  ready : type.fetched (after n).state
  directory : after n = (before n).withState (after n).state
  below : ∀ m, n <:+ m → m ≠ n → after m = before m

theorem Fetched.hit (isGet : type.isGet = true) (ok : Coherent arity s)
    (isHit : type.misses (s n).state = false) :
    Fetched arity type n s (update s n ((s n).withState (type.hit (s n).state))) := by
  have kind := AccessType.hit_kind isGet isHit
  exact {
    coherent := ok.setState kind.1 kind.2
    ready := by
      rw [update_self]
      exact AccessType.fetched_hit isGet isHit
    directory := by rw [update_self]; rfl
    below := by
      intro m _ notSelf
      rw [update_of_ne notSelf] }

theorem fetch_correct {answer : MESIState} (noexcl : Bool)
    (isGet : type.isGet = true) (answered : answer = .S ∨ answer = .E)
    (ok : Coherent arity s) (inTree : InTree arity n) :
    Fetched arity type n s (fetch answer type noexcl n s) := by
  induction n with
  | nil =>
    simp only [fetch]
    split
    next isMiss =>
      have served : type.served (type.grant answer) := by
        cases type <;> simp_all [AccessType.served, AccessType.grant]
      have notOwned : (s []).owned ≠ true := by
        intro owned
        obtain ⟨j, _, childExcl⟩ := (ok []).owner owned
        have exclusive := ((ok []).exclusive j childExcl).1
        cases type <;> cases state : (s []).state <;> simp_all [AccessType.misses]
      exact {
        coherent := by
          apply ok.setRoot
          · intro _
            cases type <;> simp_all [AccessType.grant] <;> rcases answered with rfl | rfl <;> simp
          · intro owned
            exact absurd owned notOwned
        ready := AccessType.fetched_of_served served
        directory := by rw [update_self]; rfl
        below := by
          intro m _ notRoot
          rw [update_of_ne notRoot] }
    next isHit => exact .hit isGet ok (Bool.not_eq_true _ ▸ isHit)
  | cons i p ih =>
    obtain ⟨mem, parentInTree⟩ := inTree
    have parent := ih parentInTree
    simp only [fetch]
    split
    next isMiss =>
      -- the parent fetches first, and then answers this cache
      have same (m) (suffix : (i :: p) <:+ m) : fetch answer type noexcl p s m = s m :=
        parent.below m (suffix_of_cons_suffix suffix) (ne_of_cons_suffix suffix)
      have childSame := same (i :: p) suffix_rfl
      have isMiss' : type.misses (fetch answer type noexcl p s (i :: p)).state = true := by
        rwa [childSame]
      obtain ⟨state, served, child, below⟩ := serve_child parent.coherent noexcl isMiss'
      exact {
        coherent := parent.coherent.serve noexcl isGet mem parent.ready isMiss'
        ready := by
          rw [child]
          exact AccessType.fetched_of_served served
        directory := by
          rw [child, childSame]
          rfl
        below := by
          intro m suffix notChild
          rw [below m suffix notChild, same m suffix] }
    next isHit => exact .hit isGet ok (Bool.not_eq_true _ ▸ isHit)

/-! ## Evictions -/

theorem recall_self : (recallBelow n s n).sharers = ∅ := by simp [recallBelow]

theorem recall_below (ok : Coherent arity s) (suffix : n <:+ m) (notSelf : m ≠ n) :
    recallBelow n s m = ⟨.I, ∅, false⟩ := by
  rcases suffix_cases suffix with eq | ⟨j, below⟩
  · exact absurd eq notSelf
  rw [recallBelow, update_of_ne notSelf, lowerUnder]
  simp only [under_iff_of_suffix below]
  split
  · rfl
  next absent =>
    exact ok.below_invalid ((ok n).child_of_not_sharer absent) below

theorem recall_outside (outside : ¬ n <:+ m) : recallBelow n s m = s m := by
  rw [recallBelow, update_of_ne, lowerUnder_of_not]
  · rintro ⟨j, _, suffix⟩
    exact outside (suffix_of_cons_suffix suffix)
  · rintro rfl
    exact outside suffix_rfl

theorem Coherent.recall (ok : Coherent arity s) (n : Path) : Coherent arity (recallBelow n s) := by
  have children (j) : recallBelow n s (j :: n) = ⟨.I, ∅, false⟩ :=
    recall_below ok (suffix_cons j n) (cons_ne_self j n)
  apply ok.edit (p := n)
  · exact
      { sharer := by simp [recall_self, children]
        inside := by simp [recall_self]
        inclusion := by simp [recall_self]
        exclusive := by simp [children]
        owner := by simp [recallBelow] }
  · intro _
    simp only [recallBelow, update_self]
    split
    next dirty =>
      have exclusive := ok.exclusive_of_dirtyUnder dirty
      simp [exclusive, MESIState.ne_I_of_isExclusive exclusive]
    next => exact ⟨Iff.rfl, rfl⟩
  · intro j m suffix
    have line := recall_below ok (suffix_of_cons_suffix suffix) (ne_of_cons_suffix suffix)
    have grandchildren (i) : recallBelow n s (i :: m) = ⟨.I, ∅, false⟩ := by
      have further := suffix.trans (suffix_cons i m)
      exact recall_below ok (suffix_of_cons_suffix further) (ne_of_cons_suffix further)
    exact {
      sharer := by simp [line, grandchildren]
      inside := by simp [line]
      inclusion := by simp [line]
      exclusive := by simp [grandchildren]
      owner := by simp [line] }
  · intro m outside
    exact recall_outside outside

/-- A cache without sharers may give its line up. -/
theorem Coherent.surrender (ok : Coherent arity s) (valid : (s n).state ≠ .I)
    (sharers : (s n).sharers = ∅) (modified : dirty = true → (s n).state = .M) :
    Coherent arity (Coherence.surrender dirty n s) := by
  cases n with
  | nil =>
    apply ok.setRoot
    · simp [sharers]
    · intro owned
      obtain ⟨i, only, _⟩ := (ok []).owner owned
      simp [sharers] at only
  | cons i p =>
    apply ok.put valid sharers
    intro isDirty
    apply ((ok p).exclusive i _).1
    simp [modified isDirty]

/-- A line that is absent from a cache has nothing to evict there. -/
theorem evict_absent (absent : s n = ⟨.I, ∅, false⟩) : Coherence.evict n s = s := by
  have recalled : recallBelow n s = s := by
    have noDirty : ¬ DirtyUnder s n ∅ := by simp [DirtyUnder]
    have sharers : (s n).sharers = ∅ := by rw [absent]
    rw [recallBelow, sharers, if_neg noDirty, lowerUnder_empty]
    have same : (⟨(s n).state, ∅, false⟩ : Line) = s n := by rw [absent]
    rw [same, update_eq_self]
  have invalid : (s n).state = .I := by rw [absent]
  rw [Coherence.evict, recalled, relinquish, if_pos invalid]

/-! ## Dirty data -/

/-- Some cache holds the line modified. -/
def Modified (s : Slice) : Prop := ∃ m, (s m).state = .M

theorem Modified.transact {type : InvType} {line : Line} (modified : Modified s)
    (self : (s p).state = .M ∨ DirtyUnder s p targets → line.state = .M)
    (child : (s (i :: p)).state = .M → state = .M ∨ line.state = .M) :
    Modified (Coherence.transact type targets line state p i s) := by
  have atSelf : line.state = .M → Modified (Coherence.transact type targets line state p i s) := by
    intro lineModified
    exact ⟨p, by rw [transact_self]; exact lineModified⟩
  obtain ⟨m, modified⟩ := modified
  by_cases isSelf : m = p
  · subst isSelf
    exact atSelf (self (.inl modified))
  by_cases isChild : m = i :: p
  · subst isChild
    rcases child modified with stateModified | lineModified
    · exact ⟨i :: p, by rw [transact_child]; exact stateModified⟩
    · exact atSelf lineModified
  · by_cases under : Under p targets m
    · exact atSelf (self (.inr ⟨m, under, modified⟩))
    · refine ⟨m, ?_⟩
      rwa [transact_other isSelf isChild, lowerUnder_of_not under]

theorem Modified.serve (noexcl : Bool) (modified : Modified s) (ready : type.fetched (s p).state)
    (isMiss : type.misses (s (i :: p)).state = true) :
    Modified (Coherence.serve type noexcl p i s) := by
  have childNotModified : (s (i :: p)).state ≠ .M := by
    intro childModified
    cases type <;> simp [childModified, AccessType.misses] at isMiss
  by_cases isGetx : type = .GETX
  · subst isGetx
    apply modified.transact
    · intro _
      exact ready
    · intro _
      exact .inl rfl
  · simp only [Coherence.serve, if_neg isGetx, serveGets]
    have self : (s p).state = .M ∨ DirtyUnder s p ∅ → (s p).state = .M := by
      rintro (selfModified | ⟨m, under, _⟩)
      · exact selfModified
      · exact absurd under (not_under_empty p m)
    split
    · exact modified.transact self fun isModified => absurd isModified childNotModified
    · split
      · apply modified.transact
        · rintro (selfModified | dirty)
          · simp [selfModified]
          · simp [dirty]
        · exact fun isModified => absurd isModified childNotModified
      · exact modified.transact self fun isModified => absurd isModified childNotModified

theorem Modified.withState (modified : Modified s) (kept : (s n).state = .M → state = .M) :
    Modified (update s n ((s n).withState state)) := by
  obtain ⟨m, modified⟩ := modified
  by_cases eq : m = n
  · subst eq
    exact ⟨m, by simpa using kept modified⟩
  · exact ⟨m, by simpa [update_of_ne eq] using modified⟩

theorem Modified.recall (modified : Modified s) (n : Path) : Modified (recallBelow n s) := by
  obtain ⟨m, modified⟩ := modified
  by_cases isSelf : m = n
  · subst isSelf
    exact ⟨m, by simp [recallBelow, modified]⟩
  by_cases under : Under n (s n).sharers m
  · have dirty : DirtyUnder s n (s n).sharers := ⟨m, under, modified⟩
    exact ⟨n, by simp [recallBelow, dirty]⟩
  · refine ⟨m, ?_⟩
    rwa [recallBelow, update_of_ne isSelf, lowerUnder_of_not under]

/-- Below the root, dirty data goes to the parent. -/
theorem Modified.surrender (modified : Modified s) {i : Nat} {p : Path}
    (carried : (s (i :: p)).state = .M → dirty = true) :
    Modified (Coherence.surrender dirty (i :: p) s) := by
  apply modified.transact
  · rintro (selfModified | ⟨m, under, _⟩)
    · simp [selfModified]
    · exact absurd under (not_under_empty p m)
  · intro childModified
    simp [carried childModified]

/-- A root without sharers holds the dirty data itself. -/
theorem Modified.root (ok : Coherent arity s) (modified : Modified s)
    (noSharers : (s []).sharers = ∅) :
    (s []).state = .M := by
  obtain ⟨m, modified⟩ := modified
  rcases suffix_cases (nil_suffix (l := m)) with isRoot | ⟨j, below⟩
  · rwa [isRoot] at modified
  · have invalid : (s [j]).state = .I := (ok []).child_of_not_sharer (by simp [noSharers])
    rw [ok.below_invalid invalid below] at modified
    exact absurd modified (by simp)

/-! ## Caches off the path of a request -/

/-- What invalidations and downgrades may do to the state of a line. -/
def MESIState.LowersTo (old new : MESIState) : Prop :=
  new = old ∨ new = .I ∨ (old.isExclusive = true ∧ new = .S)

namespace MESIState.LowersTo

variable {first second third : MESIState}

theorem refl (state : MESIState) : state.LowersTo state := Or.inl rfl

theorem trans (left : first.LowersTo second) (right : second.LowersTo third) :
    first.LowersTo third := by
  rcases left with rfl | rfl | ⟨excl, rfl⟩
  · exact right
  · rcases right with rfl | rfl | ⟨impossible, _⟩
    · exact .inr (.inl rfl)
    · exact .inr (.inl rfl)
    · simp at impossible
  · rcases right with rfl | rfl | ⟨impossible, _⟩
    · exact .inr (.inr ⟨excl, rfl⟩)
    · exact .inr (.inl rfl)
    · simp at impossible

theorem lower (type : InvType) (line : Line) : line.state.LowersTo (line.lower type).state := by
  cases type with
  | INV => exact .inr (.inl rfl)
  | INVX =>
    cases excl : line.state.isExclusive with
    | true =>
      exact .inr (.inr ⟨excl, MESIState.demote_of_isExclusive excl⟩)
    | false =>
      refine .inl ?_
      revert excl
      simp only [Line.lower]
      cases line.state <;> simp [MESIState.demote]
  | FWD => exact refl _

end MESIState.LowersTo

theorem lowerUnder_lowers (type : InvType) (p : Path) (targets : Finset Nat)
    (s : Slice) (m : Path) :
    (s m).state.LowersTo (lowerUnder type p targets s m).state := by
  by_cases under : Under p targets m
  · rw [lowerUnder_of_under under]
    exact MESIState.LowersTo.lower type (s m)
  · rw [lowerUnder_of_not under]
    exact MESIState.LowersTo.refl _

theorem ne_of_offPath (offPath : ¬ m <:+ n) : m ≠ n := by
  rintro rfl
  exact offPath suffix_rfl

theorem transact_lowers {type : InvType} {line : Line} (offPath : ¬ m <:+ (i :: p)) :
    (s m).state.LowersTo (Coherence.transact type targets line state p i s m).state := by
  have notSelf : m ≠ p := by
    rintro rfl
    exact offPath (suffix_cons i m)
  rw [transact_other notSelf (ne_of_offPath offPath)]
  exact lowerUnder_lowers type p targets s m

theorem serve_lowers (type : AccessType) (noexcl : Bool) (offPath : ¬ m <:+ (i :: p)) :
    (s m).state.LowersTo (Coherence.serve type noexcl p i s m).state := by
  simp only [Coherence.serve, Coherence.serveGets]
  split
  · exact transact_lowers offPath
  · split
    · exact transact_lowers offPath
    · split
      · exact transact_lowers offPath
      · exact transact_lowers offPath

/-- A fetch gives no rights to a cache that is not on its path. -/
theorem fetch_lowers (answer : MESIState) (type : AccessType) (noexcl : Bool)
    (offPath : ¬ m <:+ n) :
    (s m).state.LowersTo (Coherence.fetch answer type noexcl n s m).state := by
  have notSelf := ne_of_offPath offPath
  induction n with
  | nil =>
    simp only [Coherence.fetch, touch]
    split <;> rw [update_of_ne notSelf] <;> exact MESIState.LowersTo.refl _
  | cons i p ih =>
    have above : ¬ m <:+ p := fun suffix =>
      offPath (suffix.trans (suffix_cons i p))
    simp only [Coherence.fetch, touch]
    split
    · exact (ih above (ne_of_offPath above)).trans (serve_lowers type noexcl offPath)
    · rw [update_of_ne notSelf]
      exact MESIState.LowersTo.refl _

theorem ask_lowers (answer : MESIState) (type : AccessType) (noexcl : Bool) (offPath : ¬ m <:+ n) :
    (s m).state.LowersTo (Coherence.ask answer type noexcl n s m).state := by
  cases n with
  | nil =>
    have notRoot := ne_of_offPath offPath
    simp only [Coherence.ask, update_of_ne notRoot]
    exact MESIState.LowersTo.refl _
  | cons i p =>
    have above : ¬ m <:+ p := fun suffix =>
      offPath (suffix.trans (suffix_cons i p))
    exact (fetch_lowers answer type noexcl above).trans (serve_lowers type noexcl offPath)

theorem surrender_lowers (dirty : Bool) (offPath : ¬ m <:+ n) :
    (s m).state.LowersTo (Coherence.surrender dirty n s m).state := by
  cases n with
  | nil =>
    have notRoot := ne_of_offPath offPath
    simp only [Coherence.surrender, update_of_ne notRoot]
    exact MESIState.LowersTo.refl _
  | cons i p => exact transact_lowers offPath

theorem evict_lowers (offPath : ¬ m <:+ n) :
    (s m).state.LowersTo (Coherence.evict n s m).state := by
  have notSelf := ne_of_offPath offPath
  have recalled : (s m).state.LowersTo (recallBelow n s m).state := by
    simp only [recallBelow, update_of_ne notSelf]
    exact lowerUnder_lowers .INV n (s n).sharers s m
  simp only [Coherence.evict, relinquish]
  split
  · exact recalled
  · exact recalled.trans (surrender_lowers _ offPath)

theorem EvictedAbove.lowers {t : Slice} (evicted : EvictedAbove n s t) (offPath : ¬ m <:+ n) :
    (s m).state.LowersTo (t m).state := by
  obtain ⟨victims, above, rfl⟩ := evicted
  induction victims generalizing s with
  | nil => exact MESIState.LowersTo.refl _
  | cons p victims ih =>
    have offVictim : ¬ m <:+ p := fun suffix =>
      offPath (suffix.trans (above p (by simp)).1)
    exact (evict_lowers offVictim).trans (ih (fun q mem => above q (by simp [mem])))

end Damov.Coherence

end
