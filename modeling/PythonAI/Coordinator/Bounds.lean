import PythonAI.Coordinator.Beats

/-!
# How many workers run, and how often a node is claimed

`claim` counts the workers with a live lease, and nothing else does.  So the limit is kept by what
the other transactions leave undone: none of them makes a node run, or prolongs a lease that has
expired.  `renew` alone may: it reads the clock before its `UPDATE` waits for the lock, and tests
the lease with that value.

The attempts are compared with their limit by `recover` and by the supervisor, which calls `fail`
for the node as it was claimed; a human requeues a node without a look at them.

**Main results**: `Host.bounded` (the claims of a node, and the workers as long as no lease is
prolonged after its end) and `Host.overbooked` (in general there may be more workers).
-/

namespace PythonAI

open Library Budgets

namespace Coordinator

variable {h h' : Host} {a : Act} {n n' : Node} {c : ℕ}

/-- The node runs under a lease that is live at `t`. -/
def Node.runs (n : Node) (t : Time) : Bool := n.state = .running && n.live t

/-- The number of nodes that run under a live lease. -/
def Host.running (h : Host) : ℕ := h.db.nodes.countP (·.runs h.now)

namespace Act

/-- A human requeues the node `k`. -/
def requeues (k : NodeId) : Act → Bool
  | requeue k' => k' = k
  | _ => false

/-- The transaction is not about a graph, and all nodes have the concurrency `c`. -/
def plain (c : ℕ) (h : Host) (a : Act) : Bool :=
  !a.ofGraph && h.db.nodes.all (·.payload.concurrency = c)

/-- A lease that is prolonged has not expired before the transaction begins. -/
def timely (h : Host) : Act → Bool
  | renew w _ t₂ => h.db.nodes.all fun n => !renewable w t₂ n || n.live h.now
  | _ => true

theorem plain_iff : a.plain c h = true ↔
    a.ofGraph = false ∧ ∀ n ∈ h.db.nodes, n.payload.concurrency = c := by
  simp [plain]

theorem timely_iff : a.timely h = true ↔ ∀ w t₁ t₂, a = .renew w t₁ t₂ → ∀ n ∈ h.db.nodes,
    renewable w t₂ n = true → n.live h.now = true := by
  cases a with
  | renew w t₁ t₂ =>
    simp only [timely, List.all_eq_true, Bool.or_eq_true, Bool.not_eq_true']
    constructor
    · rintro ht _ _ _ ⟨⟩ n hn hr
      exact (ht n hn).resolve_left (by simp [hr])
    · intro ht n hn
      by_cases hr : renewable w t₂ n = true
      · exact .inr (ht w t₁ t₂ rfl n hn hr)
      · exact .inl (by simpa using hr)
  | _ => simp [timely]

end Act

/-! ### The claims of a node -/

namespace Host

/-- A step claims no node, or it gives one row a lease and counts a claim of it. -/
theorem starts (hg : a.ofGraph = false) (hw : h.Wf) (hs : lts.step h a h') :
    (∀ w, .worker w ∉ a.yields h.uuids h.db) ∧ (∀ k, h'.claims k = h.claims k) ∨
      ∃ m ∈ h.db.nodes, ∃ t, claimed h.uuids t m ∈ h'.db.nodes ∧
        a.yields h.uuids h.db = [.worker (claimed h.uuids t m)] ∧
        ∀ k, h'.claims k = h.claims k + if m.id = k then 1 else 0 := by
  obtain ⟨new, hheld, rfl, -⟩ := given hw hs
  have hcount : ∀ k, h'.claims k = h.claims k + (a.yields h.uuids h.db).countP (·.claims k) :=
    fun k => by rw [claims, hheld, List.countP_append, claims]
  by_cases hnone : ∀ w, .worker w ∉ a.yields h.uuids h.db
  · refine .inl ⟨hnone, fun k => ?_⟩
    rw [hcount, Nat.add_eq_left, List.countP_eq_zero]
    intro x hx hc
    cases x with
    | worker m => exact hnone m hx
    | _ => cases hc
  · push Not at hnone
    obtain ⟨w, hy⟩ := hnone
    obtain ⟨m, hm, t, rfl, hrow, heq⟩ := claimed_row hg hw hs hy
    refine .inr ⟨m, hm, t, hrow, heq, fun k => ?_⟩
    rw [hcount, heq, List.countP_singleton]
    by_cases hid : m.id = k <;> simp [Held.claims, claimed, hid]

/-- How the claims, the attempts and the leases hang together, after `r k` requeues of each node
`k` by humans. -/
structure Counted (r : NodeId → ℕ) (h : Host) : Prop where
  /-- a claim is an attempt -/
  claims : ∀ n ∈ h.db.nodes, h.claims n.id = n.attempts
  /-- a node in the queue has an attempt left -/
  bound : ∀ n ∈ h.db.nodes, n.attempts + (if n.state = .queued then 1 else 0) ≤ 3 + r n.id
  /-- the tokens of the leases were used -/
  lease : ∀ n ∈ h.db.nodes, ∀ u, n.lease = some u → u < h.uuids
  /-- so were those of the workers -/
  worker : ∀ w, .worker w ∈ h.held → ∃ u, w.lease = some u ∧ u < h.uuids
  /-- a worker that holds the lease has made the last attempt -/
  last : ∀ w, .worker w ∈ h.held → ∀ n ∈ h.db.nodes, n.id = w.id → n.holds w = true →
    n.attempts = w.attempts

end Host

/-- The lease of the row is the old one, and counts the old attempts, or it is gone or new. -/
theorem Beat.lease (hb : Beat h a n n') : n'.lease = n.lease ∧ n'.attempts = n.attempts ∨
    n'.lease = none ∨ n'.lease = some h.uuids := by
  cases hb with
  | kept _ _ hl _ ht | lost _ _ _ hl ht | renewed _ _ _ _ hl ht => exact .inl ⟨hl, ht⟩
  | ended _ _ hl ht => exact hl.imp_left fun hl => ⟨hl, ht⟩
  | returned _ _ _ _ _ _ hl | requeued _ _ _ hl => exact .inr (.inl hl)
  | claimed => exact .inr (.inr rfl)

/-- The attempts stay within the bound, which a requeue by a human raises. -/
theorem Beat.bound {r : NodeId → ℕ} (hb : Beat h a n n') (hi : h.Counted r)
    (hn : n ∈ h.db.nodes) :
    n'.attempts + (if n'.state = .queued then 1 else 0) ≤
      3 + (r n'.id + if a.requeues n'.id then 1 else 0) := by
  have hold := hi.bound n hn
  rw [hb.id]
  cases hb with
  | kept _ hs _ _ ht | renewed _ _ _ hs _ ht =>
    rw [hs, ht]
    omega
  | ended _ hs _ ht =>
    have hq : n'.state ≠ .queued := fun hq => by rw [hq] at hs; cases hs
    rw [if_neg hq, ht]
    omega
  | lost _ hless hs _ ht =>
    rw [if_pos hs, ht]
    omega
  | returned _ hw hk hh hless hs _ ht =>
    rw [if_pos hs, ht, hi.last _ hw n hn hk hh]
    omega
  | requeued ha _ hs _ ht =>
    have hr : a.requeues n.id = true := by
      rw [ha]
      exact decide_eq_true rfl
    rw [if_pos hs, ht, if_pos hr]
    omega
  | claimed ha hq =>
    rw [if_pos hq] at hold
    rw [if_neg (show (Coordinator.claimed _ _ n).state ≠ .queued from nofun)]
    show n.attempts + 1 + 0 ≤ _
    omega

namespace Host

theorem Counted.claims_step {r : NodeId → ℕ} (hg : a.ofGraph = false) (hw : h.Wf)
    (hi : h.Counted r) (hs : lts.step h a h') (hn : n ∈ h.db.nodes) (hn' : n' ∈ h'.db.nodes)
    (hb : Beat h a n n') : h'.claims n'.id = n'.attempts := by
  rw [hb.id]
  obtain ⟨hnone, hsame⟩ | ⟨m, hm, t, hrow, heq, hone⟩ := starts hg hw hs
  · rw [hsame, hi.claims n hn]
    cases hb with
    | claimed _ _ hy => exact absurd hy (hnone _)
    | _ => exact Eq.symm (by assumption)
  · rw [hone, hi.claims n hn]
    by_cases hid : m.id = n.id
    · obtain rfl := List.inj_on_of_nodup_map hw.ids hm hn hid
      obtain rfl := List.inj_on_of_nodup_map (ids_step hw hs) hn' hrow hb.id
      rw [if_pos rfl]
      rfl
    · rw [if_neg hid, Nat.add_zero]
      cases hb with
      | claimed _ _ hy =>
        rw [heq] at hy
        exact absurd (congrArg Node.id (Held.worker.inj (List.mem_singleton.1 hy))).symm hid
      | _ => exact Eq.symm (by assumption)

theorem Counted.claims_enters (hg : a.ofGraph = false) (hw : h.Wf) (hs : lts.step h a h')
    (he : Enters h n') : h'.claims n'.id = n'.attempts := by
  rw [he.attempts]
  have hzero := claims_eq_zero hw he.fresh
  obtain ⟨-, hsame⟩ | ⟨m, hm, t, -, -, hone⟩ := starts hg hw hs
  · rw [hsame, hzero]
  · rw [hone, hzero, if_neg (he.fresh m hm)]

theorem Counted.last_step {r : NodeId → ℕ} (hg : a.ofGraph = false) (hw : h.Wf)
    (hi : h.Counted r) (hs : lts.step h a h') {w : Node} (hx : .worker w ∈ h'.held)
    (hn' : n' ∈ h'.db.nodes) (hid : n'.id = w.id) (hh : n'.holds w = true)
    (hrow : (∃ n ∈ h.db.nodes, Beat h a n n') ∨ Enters h n') : n'.attempts = w.attempts := by
  simp only [Node.holds, Bool.and_eq_true, decide_eq_true_eq] at hh
  obtain ⟨new, hheld, rfl, -⟩ := given hw hs
  rw [hheld, List.mem_append] at hx
  rcases hx with hx | hx
  · obtain ⟨u, hu, hlt⟩ := hi.worker w hx
    rw [hu] at hh
    rcases hrow with ⟨n, hn, hb⟩ | he
    · rcases hb.lease with ⟨hl, ht⟩ | hl | hl
      · rw [ht]
        refine hi.last w hx n hn (hb.id.symm.trans hid) ?_
        rw [Node.holds, ← hl, hh.2, hu]
        simp
      · rw [hl] at hh
        cases hh.2
      · rw [hl] at hh
        exact absurd (Option.some.inj hh.2) (Nat.ne_of_gt hlt)
    · rw [he.lease] at hh
      cases hh.2
  · obtain ⟨m, -, t, -, hmem, -⟩ := claimed_row hg hw hs hx
    rw [List.inj_on_of_nodup_map (ids_step hw hs) hn' hmem hid]

theorem counted_step {r : NodeId → ℕ} (hg : a.ofGraph = false) (hw : h.Wf) (hi : h.Counted r)
    (hs : lts.step h a h') :
    h'.Counted fun k => r k + if a.requeues k then 1 else 0 := by
  have huuids : h'.uuids = h.uuids + 2 := by
    obtain ⟨t, -, -, -, rfl⟩ := hs
    rfl
  have hrow : ∀ n' ∈ h'.db.nodes, (∃ n ∈ h.db.nodes, Beat h a n n') ∨ Enters h n' := by
    intro n' hn'
    obtain ⟨moved, hrew, heq | ⟨m, hm, heq⟩⟩ := beats hg hw hs
    · exact .inl (hrew.old (heq ▸ hn'))
    · rw [heq, List.mem_append, List.mem_singleton] at hn'
      rcases hn' with hn' | rfl
      · exact .inl (hrew.old hn')
      · exact .inr hm
  refine ⟨fun n' hn' => ?_, fun n' hn' => ?_, fun n' hn' u hu => ?_, fun w hx => ?_,
    fun w hx n' hn' hid hh => hi.last_step hg hw hs hx hn' hid hh (hrow n' hn')⟩
  · rcases hrow n' hn' with ⟨n, hn, hb⟩ | he
    · exact hi.claims_step hg hw hs hn hn' hb
    · exact Counted.claims_enters hg hw hs he
  · rcases hrow n' hn' with ⟨n, hn, hb⟩ | he
    · exact hb.bound hi hn
    · rw [he.attempts, if_pos he.state]
      omega
  · rw [huuids]
    rcases hrow n' hn' with ⟨n, hn, hb⟩ | he
    · rcases hb.lease with ⟨hl, -⟩ | hl | hl
      · exact Nat.lt_add_right 2 (hi.lease n hn u (hl.symm.trans hu))
      · rw [hl] at hu
        cases hu
      · rw [← Option.some.inj (hl.symm.trans hu)]
        exact Nat.lt_add_of_pos_right Nat.two_pos
    · rw [he.lease] at hu
      cases hu
  · rw [huuids]
    rcases worker_lease hw hs hx with hx | hx
    · obtain ⟨u, hu, hlt⟩ := hi.worker w hx
      exact ⟨u, hu, Nat.lt_add_right 2 hlt⟩
    · exact ⟨h.uuids, hx, Nat.lt_add_of_pos_right Nat.two_pos⟩

theorem Initial.counted (hi : h.Initial) : h.Counted fun _ => 0 := by
  have hrows : ∀ n, n ∉ h.db.nodes := by
    intro n hn
    rw [hi.db] at hn
    cases hn
  have hheld : ∀ x, x ∉ h.held := by
    intro x hx
    rw [hi.held] at hx
    cases hx
  exact ⟨fun n hn => absurd hn (hrows n), fun n hn => absurd hn (hrows n),
    fun n hn => absurd hn (hrows n), fun w hx => absurd hx (hheld _),
    fun w hx => absurd hx (hheld _)⟩

/-- A run adds the requeues that it performs. -/
theorem counted_run {r : NodeId → ℕ} {as : List Act}
    (hrun : (lts.restrict fun h a => a.plain c h).Run h as h') (hw : h.Wf) (hi : h.Counted r) :
    h'.Wf ∧ h'.Counted fun k => r k + as.countP (·.requeues k) := by
  induction hrun generalizing r with
  | nil => exact ⟨hw, hi⟩
  | @cons _ _ _ a as hst _ ih =>
    have hg := (Act.plain_iff.1 hst.2).1
    obtain ⟨hw', hi'⟩ := ih (wf_step hw hst.1) (counted_step hg hw hi hst.1)
    have hsum : (fun k => r k + (a :: as).countP (·.requeues k)) =
        fun k => r k + (if a.requeues k then 1 else 0) + as.countP (·.requeues k) := by
      funext k
      rw [List.countP_cons]
      omega
    rw [hsum]
    exact ⟨hw', hi'⟩

theorem Counted.claims_le {r : NodeId → ℕ} (hw : h.Wf) (hi : h.Counted r) (k : NodeId) :
    h.claims k ≤ 3 + r k := by
  by_cases hk : ∃ n ∈ h.db.nodes, n.id = k
  · obtain ⟨n, hn, rfl⟩ := hk
    have hbound := hi.bound n hn
    rw [hi.claims n hn]
    omega
  · push Not at hk
    rw [claims_eq_zero hw hk]
    exact Nat.zero_le _

/-! ### The workers -/

end Host

theorem Node.runs_of_le {t t' : Time} (hr : n.runs t' = true) (ht : t ≤ t') : n.runs t = true := by
  simp only [runs, Bool.and_eq_true] at hr ⊢
  exact ⟨hr.1, Node.live_of_le hr.2 ht⟩

theorem Drops.runs {t t' : Time} (hd : Drops n n') (ht : t ≤ t') (hr : n'.runs t' = true) :
    n.runs t = true := by
  obtain rfl | ⟨-, rfl⟩ := hd
  · exact Node.runs_of_le hr ht
  · cases hr

/-- Unless a worker starts, a node that runs has run before, if no lease is prolonged after its
end. -/
theorem Beat.runs {t' : Time} (hb : Beat h a n n') (ht : h.now ≤ t') (hn : n ∈ h.db.nodes)
    (hc : ∀ env clock, a ≠ .claim env clock) (htimely : a.timely h = true)
    (hr : n'.runs t' = true) : n.runs h.now = true := by
  simp only [Node.runs, Bool.and_eq_true, decide_eq_true_eq] at hr ⊢
  cases hb with
  | kept _ hs _ he =>
    rw [hs] at hr
    refine ⟨hr.1, Node.live_of_le ?_ ht⟩
    rw [Node.live, ← he]
    exact hr.2
  | ended _ hs =>
    rw [hr.1] at hs
    cases hs
  | lost _ _ hs | returned _ _ _ _ _ hs | requeued _ _ hs =>
    rw [hs] at hr
    cases hr.1
  | renewed ha hren _ hs =>
    rw [hs] at hr
    exact ⟨hr.1, Act.timely_iff.1 htimely _ _ _ ha n hn hren⟩
  | claimed ha => exact absurd ha (hc _ _)

/-- The count that `claim` compares with the concurrency includes the nodes that run. -/
theorem countP_runs_le_workers {db : Db} {t t' : Time} (ht : t ≤ t') :
    db.nodes.countP (·.runs t') ≤ db.workers t := by
  refine List.countP_mono_left fun n _ hr => ?_
  have hr := Node.runs_of_le hr ht
  simp only [Node.runs, Bool.and_eq_true, decide_eq_true_eq] at hr
  simp [hr.1, hr.2]

theorem workers_of_choice {db : Db} {t : Time} (hc : choice db t n = .claim) :
    db.workers t < n.payload.concurrency := by
  unfold choice at hc
  split_ifs at hc with _ hfull
  exact Nat.lt_of_not_le hfull

namespace Host

variable {env : Env} {clock : NodeId → Time} {db' : Db} {out : Option Node} {t' : Time}

/-- `claim` starts a worker only below the limit. -/
theorem claim_runs (hw : h.Wf) (hu : ∀ n ∈ h.db.nodes, n.payload.concurrency = c)
    (hclock : ∀ n ∈ h.db.nodes, h.now ≤ clock n.id ∧ clock n.id ≤ t') (ht : h.now ≤ t')
    (hc : claim env clock h.uuids h.db = .ok (db', out)) (hle : h.running ≤ c) :
    db'.nodes.countP (·.runs t') ≤ c := by
  obtain ⟨-, hrew⟩ | ⟨n, rfl, hn, db₁, hrew, -, hchoice, heq⟩ := claim_rows hw.ids hc
  · exact (hrew.countP_le fun _ _ _ hd => hd.runs ht).trans hle
  have hids := hw.ids
  rw [← hrew.map_key fun _ _ => Drops.id] at hids
  have hmem := (Db.mem_queue hn).1
  have hlt := workers_of_choice hchoice
  rw [hu n hmem] at hlt
  rw [heq]
  calc _ ≤ db₁.nodes.countP (·.runs t') + 1 := Records.countP_map_ite_le hids
    _ ≤ db₁.workers (clock n.id) + 1 :=
      Nat.add_le_add_right (countP_runs_le_workers (hclock n hmem).2) 1
    _ ≤ c := hlt

theorem running_step (hw : h.Wf) (hplain : a.plain c h = true) (htimely : a.timely h = true)
    (hs : lts.step h a h') (hle : h.running ≤ c) : h'.running ≤ c := by
  obtain ⟨hg, hu⟩ := Act.plain_iff.1 hplain
  by_cases hc : ∃ env clock, a = .claim env clock
  · obtain ⟨env, clock, rfl⟩ := hc
    obtain ⟨t', ht, hclock, -, rfl⟩ := hs
    show (Act.perform ..).nodes.countP (·.runs t') ≤ c
    cases hr : (Act.claim env clock).attempt h.uuids h.db with
    | error e =>
      rw [Act.perform, hr, settle_error]
      exact (List.countP_mono_left fun n _ hrun => Node.runs_of_le hrun ht).trans hle
    | ok x =>
      have hok := hr
      simp only [Act.attempt, bind_eq_ok, pure_eq_ok] at hr
      obtain ⟨⟨db₁, out⟩, hclaim, hr⟩ := hr
      rw [Act.perform, hok, ← hr, settle_ok]
      exact claim_runs hw hu hclock ht hclaim hle
  · push Not at hc
    have ht : h.now ≤ h'.now := by
      obtain ⟨t', ht, -, -, rfl⟩ := hs
      exact ht
    obtain ⟨moved, hrew, hnodes⟩ := beats hg hw hs
    have hmoved : moved.countP (·.runs h'.now) ≤ c :=
      (hrew.countP_le fun n hn _ hb => hb.runs ht hn hc htimely).trans hle
    rcases hnodes with heq | ⟨m, hm, heq⟩
    · rw [running, heq]
      exact hmoved
    · have hnew : m.runs h'.now = false := by
        rw [Node.runs, hm.state]
        rfl
      rw [running, heq, List.countP_append, List.countP_singleton, hnew]
      exact hmoved

/-- **The bounds of the coordinator**, for nodes with the concurrency `c`: a node is claimed at most
three times, and once more for each requeue by a human; and if no lease is prolonged after its end,
at most `c` nodes run under a live lease. -/
theorem bounded {h₀ : Host} {as : List Act} (hi : h₀.Initial)
    (hrun : (lts.restrict fun h a => a.plain c h).Run h₀ as h) :
    (∀ k, h.claims k ≤ 3 + as.countP (·.requeues k)) ∧
      ((lts.restrict fun h a => a.plain c h ∧ a.timely h).Run h₀ as h → h.running ≤ c) := by
  constructor
  · intro k
    obtain ⟨hw, hcounted⟩ := counted_run hrun hi.wf hi.counted
    have hle := hcounted.claims_le hw k
    rwa [Nat.zero_add] at hle
  · intro htimely
    refine (htimely.preserves (P := fun m => m.Wf ∧ m.running ≤ c) ?_ ⟨hi.wf, ?_⟩).2
    · rintro m a m' ⟨hw, hle⟩ ⟨hst, hplain, hrenew⟩
      exact ⟨wf_step hw hst, running_step hw hplain hrenew hst hle⟩
    · rw [running, hi.db]
      exact Nat.zero_le _

end Host

namespace Sample

/-- A node that runs alone. -/
def single : NodeSpec := { spec with payload := { payload with concurrency := 1 } }

/-- Two nodes wait that must run alone. -/
def pair : Script :=
  (began {}).take 4 ++ List.replicate 2 fun h => (.submit {} (budget h) single 0 0, 0)

/-- The worker that claimed first. -/
def pioneer (h : Host) : Node :=
  (h.held.findSome? fun
    | .worker n => some n
    | _ => none).getD (newNode spec payload 0 0 0)

/-- The lease of the first worker expires between the two transactions of a claim; its `renew` has
read the clock before, and waits for the lock. -/
def crowded : Script :=
  pair ++ claims 1 ++ [fun _ => (.recover {} (fun _ => 90) 90, 90),
    fun _ => (.claim {} (fun _ => 91), 91), fun h => (.renew (pioneer h) 90 90, 92)]

/-- The first worker renews its lease in time. -/
def alone : Script := pair ++ claims 1 ++ [fun h => (.renew (pioneer h) 60 60, 60)] ++ claims 91

end Sample

namespace Host

/-- A lease that is prolonged after its end makes two nodes run that must run alone. -/
theorem overbooked :
    ¬ ∀ (c : ℕ) (h₀ h : Host) (as : List Act), h₀.Initial →
      (lts.restrict fun h a => a.plain c h).Run h₀ as h →
      (∀ k, h.claims k ≤ 3 + as.countP (·.requeues k)) ∧ h.running ≤ c := by
  intro hall
  have hrun : (lts.restrict fun h a => a.plain 1 h).Run Sample.host
      (Sample.host.acts Sample.crowded) (Sample.host.script Sample.crowded) :=
    run_script_restrict (by decide) (by decide)
  have hle := (hall 1 _ _ _ Sample.host_initial hrun).2
  exact absurd hle (by decide)

/-- One of the two nodes runs. -/
theorem bounded_sample :
    let h := Sample.host.script Sample.alone
    let as := Sample.host.acts Sample.alone
    (∀ k, h.claims k ≤ 3 + as.countP (·.requeues k)) ∧ h.running ≤ 1 := by
  intro h as
  have hrun : (lts.restrict fun h a => a.plain 1 h).Run Sample.host as h :=
    run_script_restrict (by decide) (by decide)
  have htimely : (lts.restrict fun h a => a.plain 1 h && a.timely h).Run Sample.host as h :=
    run_script_restrict (by decide) (by decide)
  simp only [Bool.and_eq_true] at htimely
  have hbounded := bounded Sample.host_initial hrun
  exact ⟨hbounded.1, hbounded.2 htimely⟩

end Host

end Coordinator

end PythonAI
