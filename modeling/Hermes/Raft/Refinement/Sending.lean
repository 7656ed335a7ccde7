import Hermes.Raft.Refinement.Relation
import Hermes.Data.Except

/-!
# What leaders send and commit

A leader reports its own log, its commit index and its term.  Its commit index
moves only to an entry of its own term that at least half of the members have
acknowledged, which makes everything up to it chosen.
-/

namespace Hermes.Raft

open List
open Replication (Inv)

variable {A : Assumptions} {ms : Membership} {s : Replication.State NodeID LogEntry}
  {id : NodeID} {r r' : Raft}

/-! ## Counting in maps -/

section Counting

variable {β : NodeID → Type}

/-- The keys of the entries that satisfy `p`. -/
def keysWith (map : AList β) (p : Sigma β → Bool) : Finset NodeID :=
  ((map.entries.filter p).map Sigma.fst).toFinset

theorem card_keysWith (map : AList β) (p : Sigma β → Bool) :
    (keysWith map p).card = map.entries.countP p := by
  have distinct : ((map.entries.filter p).map Sigma.fst).Nodup :=
    map.nodupKeys.sublist filter_sublist
  rw [keysWith, toFinset_card_of_nodup distinct, length_map,
    countP_eq_length_filter]

theorem mem_keysWith {map : AList β} {p : Sigma β → Bool} {q : NodeID} :
    q ∈ keysWith map p ↔ ∃ value, map.lookup q = some value ∧ p ⟨q, value⟩ = true := by
  simp only [keysWith, mem_toFinset, mem_map, mem_filter]
  constructor
  · rintro ⟨⟨key, value⟩, ⟨mem, holds⟩, rfl⟩
    exact ⟨value, AList.mem_lookup_iff.mpr mem, holds⟩
  · rintro ⟨value, known, holds⟩
    exact ⟨⟨q, value⟩, ⟨AList.mem_lookup_iff.mp known, holds⟩, rfl⟩

end Counting

/-- The members whose match index has reached `k`. -/
def holders (r : Raft) (k : ℕ) : Finset NodeID :=
  keysWith r.progress fun prog => decide (prog.2.matchIndex ≥ k)

theorem card_holders (r : Raft) (k : ℕ) :
    (r.holders k).card = r.matchIndexes.countP fun mi => decide (mi ≥ k) := by
  rw [holders, card_keysWith, Raft.matchIndexes, countP_map]
  rfl

variable {peer : NodeID}

/-- Sending a batch only adds to the messages. -/
theorem sendAppendEntries_eq (ok : r.sendAppendEntries peer = .ok r') :
    ∃ msgs, r' = { r with msgs := msgs } := by
  unfold sendAppendEntries at ok
  split at ok
  · cases ok
    exact ⟨r.msgs, rfl⟩
  · split at ok
    · cases ok
      exact ⟨r.msgs, rfl⟩
    · obtain ⟨entries, _, eq⟩ := bind_eq_ok.mp ok
      cases eq
      exact ⟨_, rfl⟩

variable {heartbeat : Bool}

theorem broadcastAppendEntries_eq (ok : r.broadcastAppendEntries heartbeat = .ok r') :
    ∃ msgs, r' = { r with msgs := msgs } := by
  refine foldlM_induction (P := fun r' : Raft => ∃ msgs, r' = { r with msgs := msgs }) ⟨r.msgs, rfl⟩
    (fun r₁ peer r₂ holds _ round => ?_) ok
  obtain ⟨msgs, rfl⟩ := holds
  split at round
  · cases round
    exact ⟨_, rfl⟩
  · obtain ⟨msgs', rfl⟩ := sendAppendEntries_eq round
    exact ⟨msgs', rfl⟩

namespace NodeOK

section

variable (ok : NodeOK A ms s id r)

include ok

theorem id_ne_empty : id ≠ "" :=
  ok.named id ok.member

theorem peer_ne (mem : peer ∈ r.config.peers) : peer ≠ id ∧ peer ∈ ms.ids := by
  rw [ok.config_eq] at mem
  have erased := (ms.config_peers id ok.member).mem_iff.mp mem
  exact (ms.ids_nodup.mem_erase_iff).mp erased

theorem commitOK (matching : A.matching) :
    CommitOK ms s.toHistory r.term r.log.committed r.log.body :=
  ⟨ok.wellFormed.committed_le, ok.committed matching⟩

/-- A configured batch size lets at least one entry through. -/
theorem batch_nonempty (matching : A.matching) (next : ℕ) : 1 ≤ r.batchEnd next - next := by
  have := ok.batch_pos matching
  rw [Raft.batchEnd, if_pos (by omega)]
  omega

/-- Moving the commit index inside the log. -/
theorem withCommitted {n : ℕ} (applied : r.log.applied ≤ n) (bound : n ≤ r.log.body.length)
    (chosen : A.matching → s.Chosen ms.rules r.term (r.log.body.take n)) :
    NodeOK A ms s id { r with log := { r.log with committed := n } } :=
  { ok with
    wellFormed := ok.wellFormed.withCommitted applied bound
    committed := chosen }

/-- A leader tracks the progress of every member. -/
theorem length_matchIndexes (leads : r.state = .leader) :
    r.matchIndexes.length = ms.ids.length := by
  have same : r.progress.keys.Perm ms.ids :=
    (perm_ext_iff_of_nodup r.progress.keys_nodup ms.ids_nodup).mpr fun q =>
      ⟨fun mem => ok.progress_mem q (AList.mem_keys.mpr mem),
        fun mem => AList.mem_keys.mp (ok.progress_all leads q mem)⟩
  rw [Raft.matchIndexes, length_map, ← same.length_eq, AList.keys, keys,
    length_map]

variable (inv : Inv ms.rules s)

include inv

theorem localLog : Replication.LocalLog ms.rules s.toHistory id r.replica :=
  ok.replica_eq ▸ inv.logs.localLog id

theorem rooted : s.Rooted LogEntry.term r.log.body :=
  (ok.localLog inv).rooted

variable (leads : r.state = .leader)

include leads

theorem leader_log : s.leader r.term = some (id, r.log.body) :=
  (ok.localLog inv).leader_log (by simpa [replica] using leads)

/-! ## Sending -/

variable {peer : NodeID}

theorem sendHeartbeat (other : peer ≠ id) : NodeOK A ms s id (r.sendHeartbeat peer) :=
  ok.sendTo rfl rfl other (fun _ => ok.role_term (by simp [leads]))
    ⟨r.log.body, ok.leader_log inv leads, ok.commitOK⟩

/-- The batch for a peer whose progress is known. -/
theorem appendOK (other : peer ≠ id) {prog : Progress}
    (known : r.progress.lookup peer = some prog) {count : ℕ} (some : A.matching → 1 ≤ count) :
    AppendOK A ms s.toHistory
      { type := .append
        toID := peer
        fromID := id
        term := r.term
        logIndex := prog.nextIndex - 1
        logTerm := r.log.termOf (prog.nextIndex - 1)
        entries := (r.log.body.drop (prog.nextIndex - 1)).take count
        commitIndex := r.log.committed } r.log.body := by
  have progress := ok.progress_ok leads peer prog known
  refine ⟨ok.leader_log inv leads, take_prefix _ _, ?_, fun matching => ?_, ok.commitOK⟩
  · rcases Nat.lt_or_ge r.log.body.length (prog.nextIndex - 1) with beyond | inside
    · refine .inr ⟨by simp [drop_eq_nil_of_le beyond.le], fun matching => ?_⟩
      have := progress.next_le matching
      omega
    · refine .inl ⟨inside, fun notStart => ?_⟩
      change prog.nextIndex - 1 ≠ 0 at notStart
      obtain ⟨k, eq⟩ : ∃ k, prog.nextIndex - 1 = k + 1 := ⟨prog.nextIndex - 2, by omega⟩
      simp only [eq, Nat.add_sub_cancel, ok.wellFormed.termOf_succ]
      rw [getElem?_eq_getElem (by omega)]
      rfl
  · -- the batch starts at an own entry, or right before the first one
    obtain ⟨log, stood, next⟩ := progress.next_own matching other
    obtain ⟨log', stood', longer⟩ := ok.started leads
    rw [stood] at stood'
    cases stood'
    have := some matching
    refine ⟨⟨log, stood, by dsimp only; omega⟩, log, stood, ?_⟩
    simp only [length_take, length_drop]
    omega

theorem sendAppendEntries (other : peer ≠ id) (eq : r.sendAppendEntries peer = .ok r') :
    NodeOK A ms s id r' := by
  unfold Raft.sendAppendEntries at eq
  split at eq
  · cases eq
    exact ok
  · rename_i prog known
    have progress := ok.progress_ok leads peer prog known
    split at eq
    · cases eq
      exact ok
    · dsimp only at eq
      rw [ok.wellFormed.slice_eq progress.next_pos] at eq
      cases eq
      exact ok.sendTo rfl rfl other (fun _ => ok.role_term (by simp [leads]))
        ⟨r.log.body, ok.appendOK inv leads other known fun matching => ok.batch_nonempty matching _⟩

theorem broadcastAppendEntries (eq : r.broadcastAppendEntries heartbeat = .ok r') :
    NodeOK A ms s id r' := by
  refine (foldlM_induction (P := fun r => NodeOK A ms s id r ∧ r.state = .leader)
    ⟨ok, leads⟩ (fun r' peer r'' holds mem round => ?_) eq).1
  have other := (ok.peer_ne mem).1
  obtain ⟨ok, leads⟩ := holds
  split at round
  · cases round
    exact ⟨ok.sendHeartbeat inv leads other, leads⟩
  · obtain ⟨msgs, rfl⟩ := sendAppendEntries_eq round
    exact ⟨ok.sendAppendEntries inv leads other round, leads⟩

/-! ## Committing -/

/-- What at least half of the members hold in an entry of the leader's term is
committed. -/
theorem committed_of_count (matching : A.matching) {k : ℕ} (positive : 1 ≤ k)
    (bound : k ≤ r.log.body.length) (termEq : r.log.termOf k = r.term)
    (count : RaftLog.commitCount r.matchIndexes k ≥ (r.matchIndexes.length + 1) / 2 + 1) :
    s.Committed ms.rules r.term k := by
  have leader := ok.leader_log inv leads
  have enough : ms.ids.length ≤ 2 * (r.holders k).card := by
    rw [RaftLog.commitCount, ok.length_matchIndexes leads, ← card_holders] at count
    omega
  have nonempty : (r.holders k).Nonempty := by
    have := length_pos_of_mem ok.member
    exact Finset.card_pos.mp (by omega)
  constructor
  · obtain ⟨before, entry, inBody, rfl, sameTerm⟩ := ok.wellFormed.exists_of_termOf_pos
      (termEq ▸ ok.role_term (by simp [leads]))
    refine ⟨before, entry, ?_, sameTerm.trans termEq⟩
    rw [Replication.History.upTo_eq leader]
    exact (prefix_iff_eq_take.mp inBody).symm ▸ by simp
  · refine ⟨r.holders k, ⟨?_, enough, nonempty⟩, ?_⟩
    · intro q mem
      obtain ⟨prog, known, _⟩ := mem_keysWith.mp mem
      rw [mem_toFinset]
      exact ok.progress_mem q (AList.lookup_isSome.mp (by simp [known]))
    · intro q mem
      obtain ⟨prog, known, reached⟩ := mem_keysWith.mp mem
      exact (ok.progress_ok leads q prog known).acked matching k positive
        (of_decide_eq_true reached)

theorem maybeCommit : NodeOK A ms s id r.maybeCommit := by
  have bound := ok.wellFormed.applied_le
  rw [Raft.maybeCommit, RaftLog.maybeCommit]
  rcases r.log.maybeCommitFrom_cases r.matchIndexes r.term r.log.lastIndex with
    same | ⟨k, above, below, count, termEq, moved⟩
  · rw [same]
    exact ok
  · rw [moved]
    rw [ok.wellFormed.lastIndex_eq] at below
    refine ok.withCommitted (by omega) below fun matching => ?_
    have committed := ok.committed_of_count inv leads matching (by omega) below termEq count
    refine .inr ⟨r.term, k, le_rfl, committed, ?_⟩
    rw [Replication.History.upTo_eq (ok.leader_log inv leads)]

end

end NodeOK

end Hermes.Raft
