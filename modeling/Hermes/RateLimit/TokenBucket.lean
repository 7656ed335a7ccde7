import Hermes.Data.Runs

/-!
# The token bucket

A bucket holds tokens up to its capacity and gains them at a fixed rate; a call is admitted
at the price of tokens.  Numbers are exact, and times are in seconds.
-/

namespace Hermes.RateLimit

structure TokenBucket where
  capacity : ℚ
  rate : ℚ
  tokens : ℚ
  lastTime : ℚ
  allowed : ℤ := 0
  rejected : ℤ := 0
  deriving DecidableEq, Repr

/-- `int(x)`: the fraction is dropped. -/
def truncate (x : ℚ) : ℤ :=
  if 0 ≤ x then ⌊x⌋ else ⌈x⌉

namespace TokenBucket

/-- `NewTokenBucket`: a bucket starts full. -/
def new (capacity rate now : ℚ) : TokenBucket where
  capacity := capacity
  rate := rate
  tokens := capacity
  lastTime := now

/-- The lines with which `Allow` and `AllowN` begin. -/
def refill (tb : TokenBucket) (now : ℚ) : TokenBucket :=
  let elapsed := now - tb.lastTime
  { tb with
    lastTime := now
    tokens := min tb.capacity (tb.tokens + elapsed * tb.rate) }

/-- `Allow`. -/
def allow (tb : TokenBucket) (cost now : ℚ) : Bool × TokenBucket :=
  let tb := tb.refill now
  if tb.tokens ≥ cost then
    (true, { tb with tokens := tb.tokens - cost, allowed := tb.allowed + 1 })
  else (false, { tb with rejected := tb.rejected + 1 })

/-- `AllowN` admits as much of `n` as there are whole tokens. -/
def allowN (tb : TokenBucket) (n : ℤ) (now : ℚ) : ℤ × TokenBucket :=
  let tb := tb.refill now
  let allowed := truncate (min n tb.tokens)
  (allowed,
    { tb with
      tokens := tb.tokens - allowed
      allowed := tb.allowed + allowed
      rejected := tb.rejected + (n - allowed) })

end TokenBucket

/-! ## Histories of calls -/

inductive Call where
  | allow (cost : ℚ)
  | allowN (n : ℤ)
  deriving DecidableEq, Repr

/-- No call asks for less than nothing. -/
def Call.Valid : Call → Prop
  | .allow cost => 0 ≤ cost
  | .allowN n => 0 ≤ n

instance : DecidablePred Call.Valid := by
  rintro ⟨⟩ <;> delta Call.Valid <;> infer_instance

/-- A call at a time: the cost that it admits, and the bucket after it. -/
def TokenBucket.call (tb : TokenBucket) (now : ℚ) : Call → ℚ × TokenBucket
  | .allow cost =>
    let (admitted, tb) := tb.allow cost now
    (if admitted then cost else 0, tb)
  | .allowN n =>
    let (admitted, tb) := tb.allowN n now
    (admitted, tb)

/-- A bucket and what it has admitted, with the times. -/
structure Usage where
  bucket : TokenBucket
  admitted : List (ℚ × ℚ) := []
  deriving DecidableEq, Repr

namespace Usage

/-- A call at a clock reading. -/
def step (u : Usage) (event : ℚ × Call) : Option Usage :=
  let (cost, bucket) := u.bucket.call event.1 event.2
  some { bucket := bucket, admitted := u.admitted ++ [(event.1, cost)] }

/-- The clock does not go back, and the call is a valid one. -/
def Allowed (u : Usage) (event : ℚ × Call) : Prop :=
  u.bucket.lastTime ≤ event.1 ∧ event.2.Valid
  deriving Decidable

/-- The buckets that calls lead to. -/
abbrev Reachable (capacity rate now : ℚ) : Usage → Prop :=
  Runs.Reachable step Allowed { bucket := .new capacity rate now }

/-- The total cost admitted by the calls in a window of time. -/
def within (u : Usage) (s t : ℚ) : ℚ :=
  ((u.admitted.filter fun a => s ≤ a.1 ∧ a.1 ≤ t).map Prod.snd).sum

end Usage

/-! ## What a call does -/

theorem truncate_nonneg {x : ℚ} (nonneg : 0 ≤ x) : 0 ≤ truncate x := by
  rw [truncate, if_pos nonneg]
  exact Int.floor_nonneg.mpr nonneg

theorem truncate_le {x : ℚ} (nonneg : 0 ≤ x) : (truncate x : ℚ) ≤ x := by
  rw [truncate, if_pos nonneg]
  exact Int.floor_le x

namespace TokenBucket

variable {tb : TokenBucket} {now : ℚ}

theorem refill_le_capacity : (tb.refill now).tokens ≤ tb.capacity :=
  min_le_left _ _

theorem refill_le : (tb.refill now).tokens ≤ tb.tokens + (now - tb.lastTime) * tb.rate :=
  min_le_right _ _

theorem refill_nonneg (capacity : 0 ≤ tb.capacity) (rate : 0 ≤ tb.rate) (tokens : 0 ≤ tb.tokens)
    (later : tb.lastTime ≤ now) : 0 ≤ (tb.refill now).tokens := by
  apply le_min capacity
  have gained := mul_nonneg (sub_nonneg.mpr later) rate
  exact add_nonneg tokens gained

/-- A call takes the admitted cost out of the refilled bucket. -/
structure Takes (tb : TokenBucket) (now cost : ℚ) (tb' : TokenBucket) : Prop where
  capacity : tb'.capacity = tb.capacity
  rate : tb'.rate = tb.rate
  lastTime : tb'.lastTime = now
  tokens : tb'.tokens = (tb.refill now).tokens - cost
  nonneg : 0 ≤ cost
  covered : cost ≤ (tb.refill now).tokens

theorem call_takes {c : Call} (valid : c.Valid) (nonneg : 0 ≤ (tb.refill now).tokens) :
    Takes tb now (tb.call now c).1 (tb.call now c).2 := by
  cases c with
  | allow cost =>
    rw [call, allow]
    dsimp only
    split
    · rename_i enough
      exact ⟨rfl, rfl, rfl, rfl, valid, enough⟩
    · exact ⟨rfl, rfl, rfl, (sub_zero _).symm, le_rfl, nonneg⟩
  | allowN n =>
    have both : (0 : ℚ) ≤ min (n : ℚ) (tb.refill now).tokens :=
      le_min (Int.cast_nonneg valid) nonneg
    exact ⟨rfl, rfl, rfl, rfl, Int.cast_nonneg (truncate_nonneg both),
      (truncate_le both).trans (min_le_right _ _)⟩

end TokenBucket

/-! ## Throughput -/

namespace Usage

/-- The total cost admitted since a time. -/
def since (u : Usage) (s : ℚ) : ℚ :=
  ((u.admitted.filter fun a => s ≤ a.1).map Prod.snd).sum

/-- What bounds the throughput: the tokens that are left count as if they had been admitted
already, in every window that ends now. -/
structure Bounded (capacity rate : ℚ) (u : Usage) : Prop where
  capacity_eq : u.bucket.capacity = capacity
  rate_eq : u.bucket.rate = rate
  tokens_nonneg : 0 ≤ u.bucket.tokens
  tokens_le : u.bucket.tokens ≤ capacity
  past : ∀ a ∈ u.admitted, a.1 ≤ u.bucket.lastTime
  since_le : ∀ s ≤ u.bucket.lastTime,
    u.since s + u.bucket.tokens ≤ capacity + rate * (u.bucket.lastTime - s)
  within_le : ∀ s t, s ≤ t → u.within s t ≤ capacity + rate * (t - s)

variable {capacity rate : ℚ} {u : Usage}

theorem bounded_new (capacity_pos : 0 < capacity) (rate_nonneg : 0 ≤ rate) (now : ℚ) :
    Bounded capacity rate { bucket := .new capacity rate now } where
  capacity_eq := rfl
  rate_eq := rfl
  tokens_nonneg := capacity_pos.le
  tokens_le := le_rfl
  past := nofun
  since_le s before := by
    have gained := mul_nonneg rate_nonneg (sub_nonneg.mpr before)
    simpa [since, TokenBucket.new] using gained
  within_le s t before := by
    have gained := mul_nonneg rate_nonneg (sub_nonneg.mpr before)
    simpa [within] using add_nonneg capacity_pos.le gained

theorem within_concat (bucket : TokenBucket) (now cost s t : ℚ) :
    within { bucket := bucket, admitted := u.admitted ++ [(now, cost)] } s t =
      u.within s t + if s ≤ now ∧ now ≤ t then cost else 0 := by
  rw [within, within]
  split <;> rename_i inside <;> simp [inside]

theorem since_concat (bucket : TokenBucket) (now cost s : ℚ) :
    since { bucket := bucket, admitted := u.admitted ++ [(now, cost)] } s =
      u.since s + if s ≤ now then cost else 0 := by
  rw [since, since]
  split <;> rename_i inside <;> simp [inside]

theorem Bounded.refill_le (bounded : Bounded capacity rate u) (now : ℚ) :
    (u.bucket.refill now).tokens ≤ capacity := by
  rw [← bounded.capacity_eq]
  exact TokenBucket.refill_le_capacity

theorem since_eq_zero (bounded : Bounded capacity rate u) {s : ℚ}
    (later : u.bucket.lastTime < s) : u.since s = 0 := by
  have none : u.admitted.filter (fun a => s ≤ a.1) = [] := by
    apply List.filter_eq_nil_iff.mpr
    intro a mem
    simpa using (bounded.past a mem).trans_lt later
  simp [since, none]

theorem within_eq_since (bounded : Bounded capacity rate u) {s t : ℚ}
    (later : u.bucket.lastTime ≤ t) : u.within s t = u.since s := by
  have same : u.admitted.filter (fun a => s ≤ a.1 ∧ a.1 ≤ t) =
      u.admitted.filter fun a => s ≤ a.1 := by
    apply List.filter_congr
    intro a mem
    simp [(bounded.past a mem).trans later]
  rw [within, same, since]

section

variable (rate_nonneg : 0 ≤ rate) (bounded : Bounded capacity rate u)

include rate_nonneg bounded

variable {bucket : TokenBucket}

/-- Taking the cost of a call out of the bucket moves it from the tokens that are left to
what was admitted. -/
theorem Bounded.since_takes_le {now cost : ℚ} (takes : u.bucket.Takes now cost bucket) {s : ℚ}
    (before : s ≤ now) : u.since s + cost + bucket.tokens ≤ capacity + rate * (now - s) := by
  rw [takes.tokens]
  rcases le_or_gt s u.bucket.lastTime with old | new
  · have gain : (u.bucket.refill now).tokens ≤
        u.bucket.tokens + (now - u.bucket.lastTime) * rate := by
      rw [← bounded.rate_eq]
      exact TokenBucket.refill_le
    have bound := bounded.since_le s old
    linarith
  · -- the window has no earlier call, and no bucket holds more than its capacity
    have gained := mul_nonneg rate_nonneg (sub_nonneg.mpr before)
    have full := bounded.refill_le now
    rw [since_eq_zero bounded new]
    linarith

theorem Bounded.takes {now cost : ℚ} (later : u.bucket.lastTime ≤ now)
    (takes : u.bucket.Takes now cost bucket) :
    Bounded capacity rate { bucket := bucket, admitted := u.admitted ++ [(now, cost)] } := by
  have past : ∀ a ∈ u.admitted ++ [(now, cost)], a.1 ≤ now := by
    rw [List.forall_mem_append, List.forall_mem_singleton]
    exact ⟨fun a old => (bounded.past a old).trans later, le_rfl⟩
  have tokens_nonneg : 0 ≤ bucket.tokens := by
    rw [takes.tokens]
    exact sub_nonneg.mpr takes.covered
  constructor
  · exact takes.capacity.trans bounded.capacity_eq
  · exact takes.rate.trans bounded.rate_eq
  · exact tokens_nonneg
  · rw [takes.tokens]
    linarith [takes.nonneg, bounded.refill_le now]
  · rw [takes.lastTime]
    exact past
  · intro s before
    rw [takes.lastTime] at before ⊢
    rw [since_concat, if_pos before]
    exact bounded.since_takes_le rate_nonneg takes before
  · intro s t order
    rw [within_concat]
    split
    · rename_i inside
      have bound := bounded.since_takes_le rate_nonneg takes inside.1
      have gained := mul_le_mul_of_nonneg_left (sub_le_sub_right inside.2 s) rate_nonneg
      rw [within_eq_since bounded (later.trans inside.2)]
      linarith
    · rw [add_zero]
      exact bounded.within_le s t order

theorem Bounded.step {event : ℚ × Call} (ok : u.Allowed event) {u' : Usage}
    (happens : u.step event = some u') : Bounded capacity rate u' := by
  obtain ⟨later, valid⟩ := ok
  cases happens
  apply bounded.takes rate_nonneg later
  apply TokenBucket.call_takes valid
  apply TokenBucket.refill_nonneg _ _ bounded.tokens_nonneg later
  · rw [bounded.capacity_eq]
    exact bounded.tokens_nonneg.trans bounded.tokens_le
  · rw [bounded.rate_eq]
    exact rate_nonneg

end

theorem bounded_of_reachable {now : ℚ} (capacity_pos : 0 < capacity) (rate_nonneg : 0 ≤ rate)
    (reachable : Reachable capacity rate now u) : Bounded capacity rate u := by
  apply reachable.invariant
  · exact bounded_new capacity_pos rate_nonneg now
  · intro u event u' bounded ok happens
    exact bounded.step rate_nonneg ok happens

/-- A token bucket bounds the throughput in every window of time. -/
theorem throughput_le {capacity rate now : ℚ} {u : Usage} (capacity_pos : 0 < capacity)
    (rate_nonneg : 0 ≤ rate) (reachable : Reachable capacity rate now u) :
    (0 ≤ u.bucket.tokens ∧ u.bucket.tokens ≤ capacity) ∧
      ∀ s t, s ≤ t → u.within s t ≤ capacity + rate * (t - s) := by
  have bounded := bounded_of_reachable capacity_pos rate_nonneg reachable
  exact ⟨⟨bounded.tokens_nonneg, bounded.tokens_le⟩, bounded.within_le⟩

/-- A burst, a pause and calls that are admitted in part or not at all. -/
def calls : List (ℚ × Call) :=
  [(0, .allow 2), (0, .allowN 7), (1 / 2, .allow 1), (1, .allowN 3), (1, .allow 1)]

theorem throughput_le_calls :
    ∃ u : Usage, Reachable 5 2 0 u ∧ u.within 0 1 = 7 ∧ u.within 0 1 ≤ 5 + 2 * (1 - 0) := by
  refine Runs.exists_of_exec_and step Allowed { bucket := .new 5 2 0 } calls (by decide +kernel)
    fun u reachable _ => ?_
  exact (throughput_le (by decide) (by decide) reachable).2 0 1 (by decide)

end Usage

end Hermes.RateLimit
