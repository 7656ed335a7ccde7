import Hermes.Data.Runs

/-!
# Locks with fencing tokens

The lock service.  A grant stays where it is when the table forgets it, and the table and
the holder share it, so that the table has places of grants.  Every reading of the clock is
an argument, in the order in which the code takes them.
-/

namespace Hermes.Consistency

open AList List Option Runs

/-- Nanoseconds, for points in time and for durations. -/
abbrev Nanos := ℤ

structure LockGrant where
  token : ℕ
  expiresAt : Nanos
  lockName : String
  holder : String
  deriving DecidableEq, Repr

/-- The grant has not expired. -/
def LockGrant.isValid (g : LockGrant) (now : Nanos) : Bool :=
  decide (now < g.expiresAt)

/-- Why a call of the service fails, with what its message shows. -/
inductive LockError where
  | held (lockName holder : String) (expiresIn : Nanos)
  | notFound (lockName : String)
  | tokenMismatch (lockName : String) (presented granted : ℕ)
  | cannotRenew (lockName : String)
  | alreadyExpired (lockName : String)
  | noCurrentHolder (lockName : String)
  | staleToken (lockName : String) (token current : ℕ)
  | expiredToken (lockName : String)
  deriving DecidableEq, Repr

structure DistributedLockService where
  grants : List LockGrant := []
  locks : AList fun _ : String => ℕ := ∅
  nextToken : ℕ := 1
  defaultTTL : Nanos := 30000000000

namespace DistributedLockService

/-- The grant that the table has for a lock, and where it is. -/
def existing (s : DistributedLockService) (lockName : String) : Option (ℕ × LockGrant) :=
  match s.locks.lookup lockName with
  | none => none
  | some place => (s.grants[place]?).map fun grant => (place, grant)

/-- Issue a grant with a fresh token. -/
def issue (s : DistributedLockService) (lockName holder : String) (expiresAt : Nanos) :
    DistributedLockService :=
  { s with
    grants := s.grants ++ [{
      token := s.nextToken + 1
      expiresAt := expiresAt
      lockName := lockName
      holder := holder }]
    locks := s.locks.insert lockName s.grants.length
    nextToken := s.nextToken + 1 }

/-- `Acquire`: the place of the new grant. -/
def acquire (s : DistributedLockService) (lockName holder : String)
    (ttl checked granted : Nanos) : Except LockError (DistributedLockService × ℕ) :=
  let ttl := if ttl ≤ 0 then s.defaultTTL else ttl
  match s.existing lockName with
  | some (_, existing) =>
    if existing.isValid checked then
      .error (.held lockName existing.holder (existing.expiresAt - granted))
    else .ok (s.issue lockName holder (granted + ttl), s.grants.length)
  | none => .ok (s.issue lockName holder (granted + ttl), s.grants.length)

def release (s : DistributedLockService) (lockName : String) (token : ℕ) :
    Except LockError DistributedLockService :=
  match s.existing lockName with
  | none => .error (.notFound lockName)
  | some (_, existing) =>
    if existing.token ≠ token then .error (.tokenMismatch lockName token existing.token)
    else .ok { s with locks := s.locks.erase lockName }

/-- Move the expiry of the grant at a place. -/
def extend (s : DistributedLockService) (place : ℕ) (expiresAt : Nanos) :
    DistributedLockService :=
  { s with grants := s.grants.modify place fun grant => { grant with expiresAt := expiresAt } }

/-- `Renew`. -/
def renew (s : DistributedLockService) (lockName : String) (token : ℕ)
    (ttl checked renewed : Nanos) : Except LockError DistributedLockService :=
  match s.existing lockName with
  | none => .error (.notFound lockName)
  | some (place, existing) =>
    if existing.token ≠ token then .error (.cannotRenew lockName)
    else if !existing.isValid checked then .error (.alreadyExpired lockName)
    else .ok (s.extend place (renewed + ttl))

/-- `VerifyToken`. -/
def verifyToken (s : DistributedLockService) (lockName : String) (token : ℕ) (now : Nanos) :
    Except LockError Unit :=
  match s.existing lockName with
  | none => .error (.noCurrentHolder lockName)
  | some (_, existing) =>
    if existing.token > token then .error (.staleToken lockName token existing.token)
    else if !existing.isValid now then .error (.expiredToken lockName)
    else .ok ()

/-- One round of the loop of a sweep. -/
def sweepLock (grants : List LockGrant) (now : Nanos) (locks : AList fun _ : String => ℕ)
    (entry : (_ : String) × ℕ) : AList fun _ : String => ℕ :=
  match grants[entry.2]? with
  | none => locks
  | some grant => if now > grant.expiresAt then locks.erase entry.1 else locks

/-- What `expireLoop` does at a tick. -/
def sweep (s : DistributedLockService) (now : Nanos) : DistributedLockService :=
  { s with locks := s.locks.entries.foldl (sweepLock s.grants now) s.locks }

end DistributedLockService

/-! ## Runs -/

/-- The service, the last reading of the clock and the places of the grants that have been
released. -/
structure LockRun where
  service : DistributedLockService
  now : Nanos
  released : List ℕ := []

inductive LockEvent where
  | acquire (lockName holder : String) (ttl checked granted : Nanos)
  | release (lockName : String) (token : ℕ)
  | renew (lockName : String) (token : ℕ) (ttl checked renewed : Nanos)
  | verifyToken (lockName : String) (token : ℕ) (now : Nanos)
  | sweep (now : Nanos)
  deriving DecidableEq, Repr

namespace LockRun

/-- A new service. -/
def start (now : Nanos) : LockRun where
  service := {}
  now := now

/-- The place of the grant that a call releases. -/
def releasing (s : LockRun) (lockName : String) : List ℕ :=
  match s.service.existing lockName with
  | none => s.released
  | some (place, _) => place :: s.released

/-- One event.  The clock does not go back; a call that fails changes nothing else. -/
def step (s : LockRun) : LockEvent → Option LockRun
  | .acquire lockName holder ttl checked granted =>
    if s.now ≤ checked ∧ checked ≤ granted then
      match s.service.acquire lockName holder ttl checked granted with
      | .ok (service, _) => some { s with service := service, now := granted }
      | .error _ => some { s with now := granted }
    else none
  | .release lockName token =>
    match s.service.release lockName token with
    | .ok service => some { s with service := service, released := s.releasing lockName }
    | .error _ => some s
  | .renew lockName token ttl checked renewed =>
    if s.now ≤ checked ∧ checked ≤ renewed then
      match s.service.renew lockName token ttl checked renewed with
      | .ok service => some { s with service := service, now := renewed }
      | .error _ => some { s with now := renewed }
    else none
  | .verifyToken _ _ now => if s.now ≤ now then some { s with now := now } else none
  | .sweep now =>
    if s.now ≤ now then some { s with service := s.service.sweep now, now := now } else none

/-- The states that a new service can reach. -/
abbrev Reachable (now : Nanos) : LockRun → Prop :=
  Runs.Reachable step (fun _ _ => True) (start now)

end LockRun

/-! ## The table and the grants -/

variable {g : LockGrant} {grant : LockGrant} {place : ℕ} {token : ℕ} {expiresAt : Nanos}

namespace DistributedLockService

variable {s : DistributedLockService} {lockName : String}

theorem existing_eq_some_iff : s.existing lockName = some (place, grant) ↔
      s.locks.lookup lockName = some place ∧ s.grants[place]? = some grant := by
  unfold existing
  cases s.locks.lookup lockName with
  | none => simp
  | some i =>
    simp only [map_eq_some_iff, Prod.mk.injEq, some.injEq]
    constructor
    · rintro ⟨g, found, rfl, rfl⟩
      exact ⟨rfl, found⟩
    · rintro ⟨rfl, found⟩
      exact ⟨grant, found, rfl, rfl⟩

variable {s' : DistributedLockService}

/-- `Acquire` succeeds if there is no grant in the table that has not expired. -/
theorem acquire_eq_ok {holder : String} {ttl checked granted : Nanos}
    (acquired : s.acquire lockName holder ttl checked granted = .ok (s', place)) :
    (∀ i grant, s.existing lockName = some (i, grant) → grant.isValid checked = false) ∧
      place = s.grants.length ∧ ∃ expiresAt, s' = s.issue lockName holder expiresAt := by
  unfold acquire at acquired
  dsimp only at acquired
  split at acquired
  · rename_i found
    split at acquired
    · nomatch acquired
    · rename_i expired
      cases acquired
      refine ⟨fun i grant here => ?_, rfl, _, rfl⟩
      rw [found] at here
      cases here
      exact Bool.eq_false_iff.mpr expired
  · rename_i absent
    cases acquired
    refine ⟨fun i grant here => ?_, rfl, _, rfl⟩
    rw [absent] at here
    nomatch here

theorem release_eq_ok (released : s.release lockName token = .ok s') :
    ∃ place grant, s.existing lockName = some (place, grant) ∧
      s' = { s with locks := s.locks.erase lockName } := by
  unfold release at released
  split at released
  · nomatch released
  · rename_i place grant found
    split at released
    · nomatch released
    · cases released
      exact ⟨place, grant, found, rfl⟩

theorem renew_eq_ok {ttl checked renewed : Nanos}
    (extended : s.renew lockName token ttl checked renewed = .ok s') :
    ∃ place grant, s.existing lockName = some (place, grant) ∧
      ∃ expiresAt, s' = s.extend place expiresAt := by
  unfold renew at extended
  split at extended
  · nomatch extended
  · rename_i place grant found
    split at extended
    · nomatch extended
    · split at extended
      · nomatch extended
      · cases extended
        exact ⟨place, grant, found, _, rfl⟩

theorem getElem?_extend {place i : ℕ} (found : (s.extend place expiresAt).grants[i]? = some g) :
    ∃ old, s.grants[i]? = some old ∧ g.token = old.token ∧ g.lockName = old.lockName ∧
      (i ≠ place → g = old) := by
  rw [extend, getElem?_modify] at found
  obtain ⟨old, at_i, eq⟩ := map_eq_some_iff.mp found
  refine ⟨old, at_i, ?_⟩
  by_cases same : place = i
  · rw [if_pos same] at eq
    subst eq
    exact ⟨rfl, rfl, fun other => absurd same.symm other⟩
  · rw [if_neg same] at eq
    subst eq
    exact ⟨rfl, rfl, fun _ => rfl⟩

theorem exists_getElem?_extend {place i : ℕ} (found : s.grants[i]? = some g) :
    ∃ new, (s.extend place expiresAt).grants[i]? = some new ∧ new.token = g.token ∧
      new.lockName = g.lockName := by
  rw [extend, getElem?_modify, found]
  split
  · exact ⟨_, rfl, rfl, rfl⟩
  · exact ⟨_, rfl, rfl, rfl⟩

/-- A sweep removes only locks whose grants have expired. -/
theorem lookup_sweep (s : DistributedLockService) (now : Nanos) (lockName : String) :
    (s.sweep now).locks.lookup lockName = s.locks.lookup lockName ∨
      (s.sweep now).locks.lookup lockName = none ∧
        ∃ place grant, s.existing lockName = some (place, grant) ∧ now > grant.expiresAt := by
  refine s.locks.entries.foldlRecOn (sweepLock s.grants now) (b := s.locks) (motive := fun locks =>
    locks.lookup lockName = s.locks.lookup lockName ∨ locks.lookup lockName = none ∧
      ∃ place grant, s.existing lockName = some (place, grant) ∧ now > grant.expiresAt)
    (.inl rfl) fun locks kept entry mem => ?_
  unfold sweepLock
  split
  · exact kept
  · rename_i grant found
    split
    · rename_i expired
      by_cases here : lockName = entry.1
      · subst here
        exact .inr ⟨lookup_erase _ _, entry.2, grant,
          existing_eq_some_iff.mpr ⟨mem_lookup_iff.mpr mem, found⟩, expired⟩
      · rw [lookup_erase_ne here]
        exact kept
    · exact kept

end DistributedLockService

open DistributedLockService (existing_eq_some_iff getElem?_extend exists_getElem?_extend
  acquire_eq_ok release_eq_ok renew_eq_ok)

/-- What an event can change. -/
inductive LockRun.Change (s : LockRun) : LockRun → Prop where
  | tick {now : Nanos} (later : s.now ≤ now) : Change s { s with now := now }
  | issue {lockName holder : String} {expiresAt checked now : Nanos} (start : s.now ≤ checked)
    (order : checked ≤ now) (expired : ∀ i grant,
      s.service.existing lockName = some (i, grant) → grant.isValid checked = false) :
    Change s { s with service := s.service.issue lockName holder expiresAt, now := now }
  | release {lockName : String} {place : ℕ} {grant : LockGrant}
    (found : s.service.existing lockName = some (place, grant)) :
    Change s { s with
      service := { s.service with locks := s.service.locks.erase lockName }
      released := s.releasing lockName }
  | extend {lockName : String} {place : ℕ} {grant : LockGrant} {now : Nanos}
    (found : s.service.existing lockName = some (place, grant)) (expiresAt : Nanos)
    (later : s.now ≤ now) :
    Change s { s with service := s.service.extend place expiresAt, now := now }
  | sweep {now : Nanos} (later : s.now ≤ now) :
    Change s { s with service := s.service.sweep now, now := now }

variable {event : LockEvent}

theorem LockRun.change_of_step {s s' : LockRun} (happens : s.step event = some s') :
    s.Change s' := by
  cases event with
  | acquire lockName holder ttl checked granted =>
    obtain ⟨order, happens⟩ := ite_none_right_eq_some.mp happens
    split at happens
    · rename_i acquired
      cases happens
      obtain ⟨expired, -, expiresAt, rfl⟩ := acquire_eq_ok acquired
      exact .issue order.1 order.2 expired
    · cases happens
      exact .tick (Int.le_trans order.1 order.2)
  | release lockName token =>
    simp only [LockRun.step] at happens
    split at happens
    · rename_i released
      cases happens
      obtain ⟨place, grant, found, rfl⟩ := release_eq_ok released
      exact .release found
    · cases happens
      exact .tick (Int.le_refl _)
  | renew lockName token ttl checked renewed =>
    obtain ⟨order, happens⟩ := ite_none_right_eq_some.mp happens
    have later := Int.le_trans order.1 order.2
    split at happens
    · rename_i extended
      cases happens
      obtain ⟨place, grant, found, expiresAt, rfl⟩ := renew_eq_ok extended
      exact .extend found expiresAt later
    · cases happens
      exact .tick later
  | verifyToken lockName token now =>
    obtain ⟨later, happens⟩ := ite_none_right_eq_some.mp happens
    cases happens
    exact .tick later
  | sweep now =>
    obtain ⟨later, happens⟩ := ite_none_right_eq_some.mp happens
    cases happens
    exact .sweep later

/-! ## Fencing -/

/-- What holds in every run.  Tokens count the grants, the table has the latest grant of a
lock, and a grant that the table does not have has been released or has expired. -/
structure Fenced (s : LockRun) : Prop where
  counter : s.service.nextToken = s.service.grants.length + 1
  tokens : ∀ i g, s.service.grants[i]? = some g → g.token = i + 2
  latest : ∀ lockName i, s.service.locks.lookup lockName = some i →
    ∃ g, s.service.grants[i]? = some g ∧ g.lockName = lockName ∧
      ∀ j h, s.service.grants[j]? = some h → h.lockName = lockName → j ≤ i
  gone : ∀ i g, s.service.grants[i]? = some g → i ∉ s.released →
    s.service.locks.lookup g.lockName ≠ some i → g.expiresAt ≤ s.now

variable {lockName : String} {now : Nanos}

namespace Fenced

variable {s : LockRun}

theorem start (now : Nanos) : Fenced (.start now) where
  counter := rfl
  tokens _ _ found := nomatch found
  latest _ _ found := nomatch found
  gone _ _ found := nomatch found

section

variable (fenced : Fenced s)

include fenced

/-- Time passes. -/
theorem tick (later : s.now ≤ now) : Fenced { s with now := now } where
  __ := fenced
  gone i g found unreleased absent :=
    Int.le_trans (fenced.gone i g found unreleased absent) later

/-- A grant of a lock that has not been released is in the table or has expired. -/
theorem existing_or_expired {i : ℕ} (found : s.service.grants[i]? = some g)
    (unreleased : i ∉ s.released) :
    s.service.existing g.lockName = some (i, g) ∨ g.expiresAt ≤ s.now := by
  by_cases present : s.service.locks.lookup g.lockName = some i
  · exact .inl (existing_eq_some_iff.mpr ⟨present, found⟩)
  · exact .inr (fenced.gone i g found unreleased present)

theorem issue {holder : String}
    (free : ∀ i g, s.service.grants[i]? = some g → g.lockName = lockName → i ∉ s.released →
      g.expiresAt ≤ now) (later : s.now ≤ now) :
    Fenced { s with service := s.service.issue lockName holder expiresAt, now := now } := by
  have new_or_old : ∀ {i : ℕ} {g : LockGrant},
      (s.service.issue lockName holder expiresAt).grants[i]? = some g →
      i < s.service.grants.length ∧ s.service.grants[i]? = some g ∨
        i = s.service.grants.length ∧ g = {
          token := s.service.nextToken + 1, expiresAt := expiresAt,
          lockName := lockName, holder := holder } :=
    getElem?_concat_eq_some
  constructor
  · show s.service.nextToken + 1 = (s.service.grants ++ [_]).length + 1
    rw [fenced.counter, length_append, length_singleton]
  · intro i g found
    rcases new_or_old found with ⟨-, found⟩ | ⟨rfl, rfl⟩
    · exact fenced.tokens i g found
    · rw [fenced.counter]
  · intro name i present
    by_cases same : name = lockName
    · subst same
      rw [DistributedLockService.issue, lookup_insert] at present
      cases present
      refine ⟨_, getElem?_concat_length, rfl, fun j h found _ => ?_⟩
      rcases new_or_old found with ⟨old, -⟩ | ⟨rfl, -⟩
      · exact old.le
      · exact le_rfl
    · rw [DistributedLockService.issue, lookup_insert_ne same] at present
      obtain ⟨g, found, named, last⟩ := fenced.latest name i present
      have old := (List.getElem?_eq_some_iff.mp found).1
      refine ⟨g, (getElem?_append_left old).trans found, named, fun j h other match_ => ?_⟩
      rcases new_or_old other with ⟨-, other⟩ | ⟨-, rfl⟩
      · exact last j h other match_
      · exact absurd match_.symm same
  · intro i g found unreleased absent
    rcases new_or_old found with ⟨old, found⟩ | ⟨rfl, rfl⟩
    · by_cases same : g.lockName = lockName
      · exact free i g found same unreleased
      · rw [DistributedLockService.issue, lookup_insert_ne same] at absent
        exact Int.le_trans (fenced.gone i g found unreleased absent) later
    · exact absurd (lookup_insert _) absent

/-- The holder gives the lock back. -/
theorem release (found : s.service.existing lockName = some (place, grant)) :
    Fenced { s with
      service := { s.service with locks := s.service.locks.erase lockName }
      released := s.releasing lockName } := by
  have released : s.releasing lockName = place :: s.released := by
    rw [LockRun.releasing, found]
  rw [existing_eq_some_iff] at found
  refine ⟨fenced.counter, fenced.tokens, fun name i present => ?_,
    fun i g here unreleased absent => ?_⟩
  · by_cases same : name = lockName
    · subst same
      rw [lookup_erase] at present
      nomatch present
    · rw [lookup_erase_ne same] at present
      exact fenced.latest name i present
  · rw [released, mem_cons, not_or] at unreleased
    apply fenced.gone i g here unreleased.2
    intro present
    by_cases same : g.lockName = lockName
    · rw [same, found.1] at present
      cases present
      exact unreleased.1 rfl
    · rw [lookup_erase_ne same] at absent
      exact absent present

/-- The holder moves the expiry of its grant. -/
theorem extend (found : s.service.existing lockName = some (place, grant)) (expiresAt : Nanos)
    (later : s.now ≤ now) :
    Fenced { s with service := s.service.extend place expiresAt, now := now } := by
  rw [existing_eq_some_iff] at found
  obtain ⟨_, here, named, -⟩ := fenced.latest lockName place found.1
  rw [found.2] at here
  cases here
  constructor
  · show _ = (modify _ _ _).length + 1
    rw [length_modify]
    exact fenced.counter
  · intro i g at_i
    obtain ⟨old, at_i, token, -⟩ := getElem?_extend at_i
    rw [token]
    exact fenced.tokens i old at_i
  · intro name i present
    obtain ⟨old, at_i, oldName, last⟩ := fenced.latest name i present
    obtain ⟨g, new, -, newName⟩ := exists_getElem?_extend at_i
    refine ⟨g, new, newName.trans oldName, fun j h at_j other => ?_⟩
    obtain ⟨h', at_j, -, same, -⟩ := getElem?_extend at_j
    exact last j h' at_j (same.symm.trans other)
  · intro i g at_i unreleased absent
    obtain ⟨old, was, -, name, same⟩ := getElem?_extend at_i
    -- the grant that is renewed is in the table
    have other : i ≠ place := by
      rintro rfl
      rw [found.2] at was
      cases was
      rw [name, named] at absent
      exact absent found.1
    rw [same other] at absent ⊢
    exact Int.le_trans (fenced.gone i old was unreleased absent) later

theorem sweep (later : s.now ≤ now) :
    Fenced { s with service := s.service.sweep now, now := now } := by
  refine ⟨fenced.counter, fenced.tokens, fun name i present => ?_,
    fun i g at_i unreleased absent => ?_⟩
  · rcases s.service.lookup_sweep now name with kept | ⟨gone, -⟩
    · exact fenced.latest name i (kept.symm.trans present)
    · nomatch gone.symm.trans present
  · rcases s.service.lookup_sweep now g.lockName with kept | ⟨-, place, grant, found, expired⟩
    · rw [kept] at absent
      exact Int.le_trans (fenced.gone i g at_i unreleased absent) later
    · rcases fenced.existing_or_expired at_i unreleased with present | gone
      · cases found.symm.trans present
        exact Int.le_of_lt expired
      · exact Int.le_trans gone later

/-- Every event keeps the service fenced. -/
theorem step {s' : LockRun} (happens : s.step event = some s') : Fenced s' := by
  cases LockRun.change_of_step happens with
  | tick later => exact fenced.tick later
  | @issue lockName holder expiresAt checked now start order expired =>
    have later := Int.le_trans start order
    apply fenced.issue _ later
    rintro i g at_i rfl unreleased
    rcases fenced.existing_or_expired at_i unreleased with present | gone
    · have notValid := expired i g present
      rw [LockGrant.isValid, decide_eq_false_iff_not, Int.not_lt] at notValid
      exact Int.le_trans notValid order
    · exact Int.le_trans gone later
  | release found => exact fenced.release found
  | extend found expiresAt later => exact fenced.extend found expiresAt later
  | sweep later => exact fenced.sweep later

/-- The token of a grant is too small as soon as a later grant of the lock exists. -/
theorem verifyToken_eq_error (mem : g ∈ s.service.grants) (stale : token < g.token) (now : Nanos) :
    ∃ error, s.service.verifyToken g.lockName token now = .error error := by
  obtain ⟨j, at_j⟩ := mem_iff_getElem?.mp mem
  unfold DistributedLockService.verifyToken
  split
  · exact ⟨_, rfl⟩
  · rename_i i current found
    rw [existing_eq_some_iff] at found
    obtain ⟨_, at_i, -, last⟩ := fenced.latest _ i found.1
    have newer := last j g at_j rfl
    have currentToken := fenced.tokens i current found.2
    have token_eq := fenced.tokens j g at_j
    rw [if_pos (by omega)]
    exact ⟨_, rfl⟩

end

end Fenced

theorem LockRun.Reachable.fenced {s : LockRun} (reachable : LockRun.Reachable now s) : Fenced s :=
  reachable.invariant (Fenced.start now) fun _ _ _ fenced _ happens => fenced.step happens

theorem LockRun.Change.kept {s s' : LockRun} (change : s.Change s') {i : ℕ}
    (found : s.service.grants[i]? = some g) :
    ∃ g', s'.service.grants[i]? = some g' ∧ g'.token = g.token ∧ g'.lockName = g.lockName := by
  cases change with
  | tick | release | sweep => exact ⟨g, found, rfl, rfl⟩
  | issue =>
    have old := (List.getElem?_eq_some_iff.mp found).1
    exact ⟨g, (getElem?_append_left old).trans found, rfl, rfl⟩
  | extend => exact exists_getElem?_extend found

/-- Fencing.  In every run the tokens of the grants are increasing in the order in which
they are issued; `Acquire` succeeds only when every grant of the lock that has not been
released has expired; and once a grant of a lock has been issued, `VerifyToken` fails for
every smaller token, from then on. -/
theorem fencing {start : Nanos} {s : LockRun} (reachable : LockRun.Reachable start s) :
    (s.service.grants.Pairwise fun earlier later => earlier.token < later.token) ∧
      (∀ lockName holder ttl checked granted service place, s.now ≤ checked →
        checked ≤ granted →
        s.service.acquire lockName holder ttl checked granted = .ok (service, place) →
        ∀ i g, s.service.grants[i]? = some g → g.lockName = lockName → i ∉ s.released →
          g.isValid checked = false) ∧
      ∀ g ∈ s.service.grants, ∀ s', Runs.Reachable LockRun.step (fun _ _ => True) s s' →
        ∀ token < g.token, ∀ now,
          ∃ error, s'.service.verifyToken g.lockName token now = .error error := by
  have fenced := reachable.fenced
  refine ⟨?increasing, ?exclusive, ?fenced⟩
  case increasing =>
    rw [pairwise_iff_getElem]
    intro i j within_i within_j order
    rw [fenced.tokens i _ (getElem?_eq_getElem within_i),
      fenced.tokens j _ (getElem?_eq_getElem within_j)]
    omega
  case exclusive =>
    rintro lockName holder ttl checked granted service place later - acquired i g at_i rfl
      unreleased
    rcases fenced.existing_or_expired at_i unreleased with present | gone
    · exact (acquire_eq_ok acquired).1 i g present
    · rw [LockGrant.isValid, decide_eq_false_iff_not, Int.not_lt]
      exact Int.le_trans gone later
  case fenced =>
    intro g mem s' run token stale now
    obtain ⟨i, at_i⟩ := mem_iff_getElem?.mp mem
    have later : Fenced s' ∧ ∃ g', s'.service.grants[i]? = some g' ∧ g'.token = g.token ∧
        g'.lockName = g.lockName := by
      induction run with
      | start => exact ⟨fenced, g, at_i, rfl, rfl⟩
      | next _ _ happens ih =>
        obtain ⟨fenced, g', at_i, token, lockName⟩ := ih
        obtain ⟨g'', at_i, token', lockName'⟩ := (LockRun.change_of_step happens).kept at_i
        exact ⟨fenced.step happens, g'', at_i, token'.trans token, lockName'.trans lockName⟩
    obtain ⟨fenced, g', at_i, token_eq, lockName⟩ := later
    rw [← lockName]
    exact fenced.verifyToken_eq_error (mem_of_getElem? at_i) (token_eq ▸ stale) now

/-- A lock is acquired, expires, is forgotten by a sweep and is acquired again: the token of
the first grant is rejected. -/
theorem fencing_expired :
    ∃ s g, LockRun.Reachable 0 s ∧ g ∈ s.service.grants ∧ 2 < g.token ∧
      ∃ error, s.service.verifyToken g.lockName 2 50 = .error error := by
  obtain ⟨s, reachable, g, mem, larger⟩ := exists_of_exec LockRun.step (fun _ _ => True)
    (.start 0) [.acquire "db" "a" 10 0 0, .sweep 20, .acquire "db" "b" 100 30 30]
    (P := fun s => ∃ g ∈ s.service.grants, 2 < g.token) (by decide +kernel)
  exact ⟨s, g, reachable, mem, larger, (fencing reachable).2.2 g mem s .start 2 larger 50⟩

/-! ## Verification -/

/-- The current grant of a lock has the token and has not expired. -/
def LockRun.Holds (s : LockRun) (lockName : String) (token : ℕ) (now : Nanos) : Prop :=
  ∃ i g, s.service.existing lockName = some (i, g) ∧ g.lockName = lockName ∧ g.token = token ∧
    g.isValid now = true

/-- `VerifyToken` only asks that the token is not below that of the current grant. -/
theorem DistributedLockService.verifyToken_eq_ok_iff {s : DistributedLockService} :
    s.verifyToken lockName token now = .ok () ↔
      ∃ i g, s.existing lockName = some (i, g) ∧ g.token ≤ token ∧ g.isValid now = true := by
  unfold verifyToken
  cases s.existing lockName with
  | none => simp
  | some found =>
    obtain ⟨i, g⟩ := found
    by_cases stale : token < g.token
    · simp [stale, not_le.mpr stale]
    · by_cases valid : g.isValid now <;> simp [stale, valid, not_lt.mp stale]

/-- In every run, `VerifyToken` accepts a token of nobody but the holder exactly if the token is
not above that of a current grant that has not expired. -/
theorem verifyToken_holds_iff {start : Nanos} {s : LockRun}
    (reachable : LockRun.Reachable start s) (lockName : String) (token : ℕ) (now : Nanos) :
    (s.service.verifyToken lockName token now = .ok () → s.Holds lockName token now) ↔
      ∀ i g, s.service.existing lockName = some (i, g) → g.isValid now = true →
        token ≤ g.token := by
  rw [DistributedLockService.verifyToken_eq_ok_iff]
  constructor
  · intro only i g found valid
    by_contra above
    obtain ⟨j, h, found', -, same, -⟩ := only ⟨i, g, found, by omega, valid⟩
    cases found.symm.trans found'
    omega
  · rintro below ⟨i, g, found, le, valid⟩
    have at_i := existing_eq_some_iff.mp found
    obtain ⟨h, at_i', named, -⟩ := reachable.fenced.latest lockName i at_i.1
    cases at_i.2.symm.trans at_i'
    exact ⟨i, g, found, named, le_antisymm le (below i g found valid), valid⟩

theorem verifyToken_holds_iff_acquired :
    ∃ s, LockRun.Reachable 0 s ∧
      (s.service.verifyToken "a" 2 5 = .ok () → s.Holds "a" 2 5) := by
  obtain ⟨s, reachable, below⟩ := exists_of_exec LockRun.step (fun _ _ => True) (.start 0)
    [.acquire "a" "x" 10 0 0, .acquire "b" "y" 10 0 0]
    (P := fun s => (s.service.existing "a").all fun found => decide (2 ≤ found.2.token))
    (by decide +kernel)
  refine ⟨s, reachable, (verifyToken_holds_iff reachable "a" 2 5).mpr fun i g found _ => ?_⟩
  rw [found] at below
  exact of_decide_eq_true below

/-- The holder of `a` has token 2; the token 3 of the lock `b` and 9, which nobody has got, are
accepted as well. -/
theorem not_verifyToken_holds :
    ∃ s, LockRun.Reachable 0 s ∧ s.service.verifyToken "a" 3 5 = .ok () ∧
      s.service.verifyToken "a" 9 5 = .ok () ∧ ¬ s.Holds "a" 3 5 ∧ ¬ s.Holds "a" 9 5 := by
  obtain ⟨s, reachable, three, nine, holder⟩ := exists_of_exec LockRun.step
    (fun _ _ => True) (.start 0) [.acquire "a" "x" 10 0 0, .acquire "b" "y" 10 0 0]
    (P := fun s => s.service.verifyToken "a" 3 5 = .ok () ∧
      s.service.verifyToken "a" 9 5 = .ok () ∧
      (s.service.existing "a").all fun found => decide (found.2.token = 2))
    (by decide +kernel)
  refine ⟨s, reachable, three, nine, ?_, ?_⟩ <;>
  · rintro ⟨i, g, found, -, token, -⟩
    rw [found] at holder
    have two : g.token = 2 := of_decide_eq_true holder
    omega

end Hermes.Consistency
