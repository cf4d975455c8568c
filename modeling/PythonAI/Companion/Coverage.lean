import Mathlib.Algebra.GroupWithZero.Nat
import Mathlib.Data.List.Forall2
import PythonAI.Companion.Translation

/-!
# A translation covers its document

The spans of a job cover its text from the first cut on, and a turn of the loop keeps this: it
records the part of the next span, or cuts the span in two.  The spans of the recorded parts stay the
first ones, so that a request is always about a span behind them.

* `translation_spec` : **what is written is the translation of the whole text, no recorded part is
  sent again, and the loops end**.
-/

namespace PythonAI

open Library

namespace Companion

/-- What a response of the turn may make of a piece. -/
def Turn.Admits (P : Text → Text → Prop) (t : Turn) : Prop :=
  ∀ text r, strip text ≠ [] → t.reply (strip text) = .response r → r.finishReason = "stop" →
    P text (leading text ++ strip (r.content.getD []) ++ trailing text)

/-- The spans cover the text, and the parts are those of the first spans. -/
structure Job.Valid (P : Text → Text → Prop) (source : Text) (job : Job) : Prop where
  /-- the spans cover the text -/
  cover : Cover 0 job.spans source.length
  /-- a part belongs to its span -/
  parts : List.Forall₂ (fun s part => P (s.slice source) part) job.recorded job.parts
  /-- an output is written when all parts are there -/
  written : job.written = true → job.parts.length = job.spans.length

/-- The turns that a span may still take. -/
def weight (s : Span) : ℕ := 2 * (s.2 - s.1) - 1

/-- The turns that a job may still take. -/
def Job.left (job : Job) : ℕ := ((job.spans.drop job.parts.length).map weight).sum

variable {P : Text → Text → Prop} {source : Text} {job next : Job} {s : Span} {t : Turn}
  {e : Option Error} {e' : Error} {turns : List Turn} {k : ℕ}

/-! ### A turn -/

theorem Job.Valid.length_le (h : job.Valid P source) : job.parts.length ≤ job.spans.length := by
  have hlength := h.parts.length_eq
  rw [Job.recorded, List.length_take] at hlength
  omega

/-- The next span, behind those of the parts. -/
theorem spans_split (hs : job.spans[job.parts.length]? = some s) :
    job.spans = job.recorded ++ s :: job.spans.drop (job.parts.length + 1) := by
  obtain ⟨hlt, rfl⟩ := List.getElem?_eq_some_iff.1 hs
  rw [Job.recorded, ← List.drop_eq_getElem_cons hlt, List.take_append_drop]

theorem left_split (hs : job.spans[job.parts.length]? = some s) :
    job.left = weight s + ((job.spans.drop (job.parts.length + 1)).map weight).sum := by
  obtain ⟨hlt, rfl⟩ := List.getElem?_eq_some_iff.1 hs
  rw [Job.left, List.drop_eq_getElem_cons hlt, List.map_cons, List.sum_cons]

theorem length_recorded (hs : job.spans[job.parts.length]? = some s) :
    job.recorded.length = job.parts.length := by
  obtain ⟨hlt, -⟩ := List.getElem?_eq_some_iff.1 hs
  rw [Job.recorded, List.length_take]
  omega

/-- What a turn keeps, and that it comes nearer to the end. -/
structure Advances (P : Text → Text → Prop) (source : Text) (job next : Job) : Prop where
  /-- the job stays valid -/
  valid : next.Valid P source
  /-- the recorded spans stay the first ones -/
  recorded : job.recorded <+: next.recorded
  /-- fewer turns are left -/
  left : next.left < job.left

theorem Job.Valid.not_written (h : job.Valid P source)
    (hs : job.spans[job.parts.length]? = some s) : job.written = false := by
  obtain ⟨hlt, -⟩ := List.getElem?_eq_some_iff.1 hs
  by_contra hw
  have heq := h.written (Bool.of_not_eq_false hw)
  omega

theorem record_advances (h : job.Valid P source) (hs : job.spans[job.parts.length]? = some s)
    {part : Text} (hpart : P (s.slice source) part) (hok : job.record part e = .ok next) :
    Advances P source job next := by
  simp only [Job.record, bind_eq_ok, pure_eq_ok] at hok
  obtain ⟨-, -, rfl⟩ := hok
  have hcover := h.cover
  rw [spans_split hs] at hcover
  obtain ⟨c, -, -, hlt, -⟩ := cover_append.1 hcover
  have hrecorded : Job.recorded { job with parts := job.parts ++ [part] } = job.recorded ++ [s] := by
    rw [Job.recorded, List.length_append, List.length_singleton, List.take_add_one, hs]
    rfl
  refine ⟨⟨h.cover, ?_, ?_⟩, ?_, ?_⟩
  · rw [hrecorded]
    exact List.rel_append h.parts (.cons hpart .nil)
  · intro hw
    rw [h.not_written hs] at hw
    cases hw
  · rw [hrecorded]
    exact List.prefix_append _ _
  · rw [left_split hs, Job.left, List.length_append, List.length_singleton, weight]
    dsimp only
    omega

/-- A piece that is cut has fewer turns left in its halves. -/
theorem refused_advances (h : job.Valid P source) (hs : job.spans[job.parts.length]? = some s)
    (hok : job.refused source s e e' = .ok next) : Advances P source job next := by
  simp only [Job.refused, bind_eq_ok, pure_eq_ok, ensure_eq_ok, Bool.not_eq_true',
    decide_eq_false_iff_not] at hok
  obtain ⟨-, hsize, -, -, rfl⟩ := hok
  obtain ⟨hsplit, -⟩ : Cover s.1 (splitRange source s.1 s.2) s.2 ∧ _ :=
    splitRange_cover source (by omega)
  have hlength := length_recorded hs
  have hrecorded : ∀ rest, (job.recorded ++ rest).take job.parts.length = job.recorded := by
    intro rest
    rw [← hlength]
    exact List.take_left
  have hcover := h.cover
  rw [spans_split hs] at hcover
  refine ⟨⟨hcover.replace hsplit, ?_, ?_⟩, ?_, ?_⟩
  · rw [Job.recorded]
    dsimp only
    rw [← Job.recorded, List.append_assoc, hrecorded]
    exact h.parts
  · intro hw
    rw [h.not_written hs] at hw
    cases hw
  · refine Eq.subst (motive := fun l => job.recorded <+: l) (Eq.symm ?_) List.prefix_rfl
    rw [Job.recorded]
    dsimp only
    rw [← Job.recorded, List.append_assoc, hrecorded]
  · -- halves of `m` and `n` characters take at most `2 * m - 1` and `2 * n - 1` turns
    obtain ⟨middle, hstart, hstop, heq⟩ := exists_middle source (Nat.lt_of_not_le hsize)
    have hhalves : ((splitRange source s.1 s.2).map weight).sum < weight s := by
      rw [heq]
      simp only [List.map_cons, List.map_nil, List.sum_cons, List.sum_nil, weight]
      omega
    rw [left_split hs, Job.left]
    dsimp only
    rw [← Job.recorded, List.append_assoc, ← hlength, List.drop_left, List.map_append,
      List.sum_append, hlength]
    exact Nat.add_lt_add_right hhalves _

/-- **A turn records the next piece or cuts it.** -/
theorem turn_advances (hblank : ∀ text, strip text = [] → P text text) (h : job.Valid P source)
    (hs : job.spans[job.parts.length]? = some s) (ht : t.Admits P)
    (hok : turn source job s t = .ok next) : Advances P source job next := by
  rw [turn, bind_eq_ok] at hok
  obtain ⟨-, -, hok⟩ := hok
  dsimp only at hok
  by_cases hspace : strip (s.slice source) = []
  · rw [if_pos hspace] at hok
    exact record_advances h hs (hblank _ hspace) hok
  · rw [if_neg hspace] at hok
    cases hreply : t.reply (strip (s.slice source)) with
    | contextTooLarge =>
      rw [hreply] at hok
      exact refused_advances h hs hok
    | fails e =>
      rw [hreply] at hok
      cases hok
    | response r =>
      rw [hreply] at hok
      dsimp only at hok
      by_cases hlong : r.finishReason = "length"
      · rw [if_pos hlong] at hok
        exact refused_advances h hs hok
      · rw [if_neg hlong, bind_eq_ok] at hok
        obtain ⟨_, hstop, hok⟩ := hok
        simp only [ensure_eq_ok, Bool.and_eq_true, decide_eq_true_eq] at hstop
        exact record_advances h hs (ht _ r hspace hreply hstop.1.1) hok

/-! ### The loop over the pieces -/

/-- The requests of a file, while the recorded spans go from the first to the second list. -/
def Follows : List Span → List Sent → List Span → Prop
  | r, [], r' => r <+: r'
  | r, x :: xs, r' => r <+: x.recorded ∧ Cover 0 x.recorded x.span.1 ∧ Follows x.recorded xs r'

theorem Follows.append {r r' r'' : List Span} {xs ys : List Sent} (h : Follows r xs r')
    (h' : Follows r' ys r'') : Follows r (xs ++ ys) r'' := by
  induction xs generalizing r with
  | nil =>
    cases ys with
    | nil => exact h.trans h'
    | cons y ys => exact ⟨h.trans h'.1, h'.2⟩
  | cons x xs ih => exact ⟨h.1, h.2.1, ih h.2.2⟩

/-- The loop ends, or returns with as many turns left, after at most `n` of `m` turns. -/
def Outcome.Within (n m : ℕ) : Outcome → Prop
  | .finished turns => m ≤ turns.length + n
  | .raised _ => True
  | .waiting => m < n

theorem Outcome.Within.mono {n n' m m' : ℕ} {o : Outcome} (h : o.Within n m)
    (hle : n + m' ≤ n' + m) : o.Within n' m' := by
  cases o with
  | finished turns =>
    have hm : m ≤ turns.length + n := h
    show m' ≤ turns.length + n'
    omega
  | raised e => trivial
  | waiting =>
    have hm : m < n := h
    show m' < n'
    omega

/-- The requests of a turn. -/
theorem asked_follows (h : job.Valid P source) (hs : job.spans[job.parts.length]? = some s)
    {r : List Span} (hr : job.recorded <+: r) :
    Follows job.recorded (asked k source job s t) r ∧
      ∀ x ∈ asked k source job s t, x.file = k := by
  rw [asked]
  split
  · exact ⟨hr, nofun⟩
  · have hcover := h.cover
    rw [spans_split hs] at hcover
    obtain ⟨c, hrecorded, rfl, -⟩ := cover_append.1 hcover
    refine ⟨⟨List.prefix_rfl, hrecorded, hr⟩, ?_⟩
    intro x hx
    rw [List.mem_singleton.1 hx]

/-- What the loop over the pieces does. -/
structure Translated (P : Text → Text → Prop) (k : ℕ) (source : Text) (turns : List Turn)
    (job : Job) (ran : Ran Job) : Prop where
  /-- the job stays valid -/
  valid : ran.value.Valid P source
  /-- the requests are about pieces behind the recorded ones -/
  follows : Follows job.recorded ran.sent ran.value.recorded
  /-- they are of the file -/
  file : ∀ x ∈ ran.sent, x.file = k
  /-- nothing is written -/
  writes : ran.writes = []
  /-- at the end all parts are there, and the turns are some of the turns -/
  finished : ∀ rest, ran.outcome = .finished rest →
    ran.value.parts.length = ran.value.spans.length ∧ rest ⊆ turns
  /-- it ends -/
  within : ran.outcome.Within job.left turns.length

theorem left_pos (h : job.Valid P source) (hs : job.spans[job.parts.length]? = some s) :
    0 < job.left := by
  have hcover := h.cover
  rw [spans_split hs] at hcover
  obtain ⟨c, -, -, hlt, -⟩ := cover_append.1 hcover
  rw [left_split hs, weight]
  omega


/-- **The loop over the pieces translates them all, or keeps what it has.** -/
theorem translate_spec (hblank : ∀ text, strip text = [] → P text text) (h : job.Valid P source)
    (ht : ∀ t ∈ turns, t.Admits P) :
    Translated P k source turns job (translate k source turns job) := by
  induction turns generalizing job with
  | nil =>
    cases hs : job.spans[job.parts.length]? with
    | none =>
      have hrun : translate k source [] job = { value := job, outcome := .finished [] } := by
        unfold translate
        rw [hs]
      have hlength := List.getElem?_eq_none_iff.1 hs
      rw [hrun]
      refine ⟨h, List.prefix_rfl, nofun, rfl, ?_, Nat.zero_le _⟩
      rintro rest ⟨⟩
      exact ⟨Nat.le_antisymm h.length_le hlength, fun _ hx => hx⟩
    | some s =>
      have hrun : translate k source [] job = { value := job, outcome := .waiting } := by
        unfold translate
        rw [hs]
      rw [hrun]
      exact ⟨h, List.prefix_rfl, nofun, rfl, nofun, left_pos h hs⟩
  | cons t turns ih =>
    cases hs : job.spans[job.parts.length]? with
    | none =>
      have hrun : translate k source (t :: turns) job =
          { value := job, outcome := .finished (t :: turns) } := by
        unfold translate
        rw [hs]
      have hlength := List.getElem?_eq_none_iff.1 hs
      rw [hrun]
      refine ⟨h, List.prefix_rfl, nofun, rfl, ?_, Nat.le_add_right _ _⟩
      rintro rest ⟨⟩
      exact ⟨Nat.le_antisymm h.length_le hlength, fun _ hx => hx⟩
    | some s =>
      cases hturn : turn source job s t with
      | error e =>
        have hrun : translate k source (t :: turns) job =
            { value := job, sent := asked k source job s t, outcome := .raised e } := by
          unfold translate
          rw [hs]
          dsimp only
          rw [hturn]
        obtain ⟨hfollows, hfile⟩ := asked_follows (k := k) (t := t) h hs List.prefix_rfl
        rw [hrun]
        exact ⟨h, hfollows, hfile, rfl, nofun, trivial⟩
      | ok next =>
        have hrun : translate k source (t :: turns) job = { translate k source turns next with
            sent := asked k source job s t ++ (translate k source turns next).sent } := by
          conv_lhs => unfold translate
          rw [hs]
          dsimp only
          rw [hturn]
        have hnext := turn_advances hblank h hs (ht t List.mem_cons_self) hturn
        have hrest := ih hnext.valid fun t' ht' => ht t' (List.mem_cons_of_mem _ ht')
        obtain ⟨hfollows, hfile⟩ := asked_follows (k := k) (t := t) h hs hnext.recorded
        rw [hrun]
        refine ⟨hrest.valid, hfollows.append hrest.follows, ?_, hrest.writes, ?_, ?_⟩
        · intro x hx
          rcases List.mem_append.1 hx with hx | hx
          · exact hfile x hx
          · exact hrest.file x hx
        · intro rest hover
          obtain ⟨hlength, hsub⟩ := hrest.finished rest hover
          exact ⟨hlength, fun x hx => List.mem_cons_of_mem _ (hsub hx)⟩
        · -- the turn that is taken is paid by the step of the job
          have hleft := hnext.left
          refine hrest.within.mono ?_
          rw [List.length_cons]
          omega

/-! ### The outputs -/

/-- An output is the translation of the whole text. -/
structure Write.Valid (P : Text → Text → Prop) (env : Env) (x : Write) : Prop where
  /-- the spans cover the text -/
  cover : Cover 0 x.spans (env.source x.file).length
  /-- every span has its part -/
  parts : List.Forall₂ (fun s part => P (s.slice (env.source x.file)) part) x.spans x.parts
  /-- the content has them all -/
  content : x.content = newlines x.parts.flatten

variable {env : Env} {file : Reference}

theorem recorded_eq_spans (hall : job.parts.length = job.spans.length) :
    job.recorded = job.spans := by
  rw [Job.recorded, hall]
  exact List.take_length

/-- What the end of a file does. -/
structure Written (P : Text → Text → Prop) (env : Env) (file : Reference) (turns : List Turn)
    (job : Job) (ran : Ran Job) : Prop where
  /-- the job stays valid -/
  valid : ran.value.Valid P (env.source file)
  /-- its parts are the same -/
  recorded : ran.value.recorded = job.recorded
  /-- what is written is the translation -/
  writes : ∀ x ∈ ran.writes, x.Valid P env
  /-- the turns that are left are some of the turns -/
  finished : ∀ rest, ran.outcome = .finished rest → rest ⊆ turns
  /-- it takes one turn -/
  within : ran.outcome.Within 1 turns.length

theorem write_spec (h : job.Valid P (env.source file))
    (hall : job.parts.length = job.spans.length) :
    Written P env file turns job (write file job turns) := by
  have hwrite : Write.Valid P env
      ⟨file, job.spans, job.parts, job.path, newlines job.parts.flatten⟩ := by
    refine ⟨h.cover, ?_, rfl⟩
    have hparts := h.parts
    rwa [recorded_eq_spans hall] at hparts
  have hself : ∀ x ∈ [Write.mk file job.spans job.parts job.path (newlines job.parts.flatten)],
      x.Valid P env := by
    intro x hx
    rw [List.mem_singleton.1 hx]
    exact hwrite
  unfold write
  by_cases hwritten : job.written = true
  · rw [if_pos hwritten]
    refine ⟨h, rfl, nofun, ?_, Nat.le_add_right _ _⟩
    rintro rest ⟨⟩
    exact fun _ hx => hx
  · rw [if_neg hwritten]
    cases turns with
    | nil => exact ⟨h, rfl, nofun, nofun, Nat.one_pos⟩
    | cons t turns =>
      dsimp only
      cases t.halts with
      | some e => exact ⟨h, rfl, nofun, nofun, trivial⟩
      | none =>
        cases t.loses with
        | some e => exact ⟨h, rfl, hself, nofun, trivial⟩
        | none =>
          refine ⟨⟨h.cover, h.parts, fun _ => hall⟩, rfl, hself, ?_, Nat.le_refl _⟩
          rintro rest ⟨⟩
          exact fun _ hx => List.mem_cons_of_mem _ hx

/-! ### The loop over the files -/

theorem any_gap {r : Span} {rs : List Span} {n : ℕ} (h : Cover 0 (r :: rs) n) :
    ((r :: rs).zip rs).any (fun (a, b) => decide (a.2 ≠ b.1)) = false := by
  refine List.any_eq_false.2 ?_
  intro x hx
  simpa using h.zip_tail x hx

theorem not_incomplete {ranges : List Span} (h : Cover 0 ranges source.length) :
    incomplete source ranges = false := by
  cases ranges with
  | nil =>
    have hnil : source = [] := List.eq_nil_of_length_eq_zero (Eq.symm h)
    rw [incomplete, hnil]
    rfl
  | cons r rs =>
    rw [incomplete, any_gap h, h.getLast, h.1]
    simp

/-- What the loop over the files keeps: the requests and the outputs belong to their files. -/
structure Kept (P : Text → Text → Prop) (env : Env) (k : ℕ) (files : List Reference)
    (jobs value : List Job) (sent : List Sent) (writes : List Write) : Prop where
  /-- the jobs stay valid -/
  valid : List.Forall₂ (fun file job => job.Valid P (env.source file)) files value
  /-- the requests of a file follow its recorded parts -/
  follows : ∀ i job job', jobs[i]? = some job → value[i]? = some job' →
    Follows job.recorded (sent.filter (·.file = k + i)) job'.recorded
  /-- every request is about a file -/
  file : ∀ x ∈ sent, k ≤ x.file ∧ x.file < k + files.length
  /-- the outputs are complete -/
  writes : ∀ x ∈ writes, x.Valid P env

variable {files : List Reference} {jobs value : List Job} {sent sent' : List Sent}
  {writes writes' : List Write}

theorem Kept.refl (h : List.Forall₂ (fun file job => job.Valid P (env.source file)) files jobs) :
    Kept P env k files jobs jobs [] [] := by
  refine ⟨h, ?_, nofun, nofun⟩
  intro i job job' hjob hjob'
  rw [hjob] at hjob'
  cases hjob'
  exact List.prefix_rfl

/-- The first file, and the others. -/
theorem Kept.cons (hvalid : next.Valid P (env.source file))
    (hfollows : Follows job.recorded sent next.recorded) (hfile : ∀ x ∈ sent, x.file = k)
    (hwrites : ∀ x ∈ writes, x.Valid P env)
    (hrest : Kept P env (k + 1) files jobs value sent' writes') :
    Kept P env k (file :: files) (job :: jobs) (next :: value) (sent ++ sent')
      (writes ++ writes') := by
  refine ⟨.cons hvalid hrest.valid, ?_, ?_, ?_⟩
  · intro i job₀ job₁ hjob₀ hjob₁
    rw [List.filter_append]
    cases i with
    | zero =>
      cases hjob₀
      cases hjob₁
      have hall : sent.filter (·.file = k) = sent :=
        List.filter_eq_self.2 fun x hx => decide_eq_true (hfile x hx)
      have hnone : sent'.filter (·.file = k) = [] := by
        refine List.filter_eq_nil_iff.2 ?_
        intro x hx hk
        have hle := (hrest.file x hx).1
        have heq := of_decide_eq_true hk
        omega
      rw [Nat.add_zero, hall, hnone, List.append_nil]
      exact hfollows
    | succ i =>
      have hnone : sent.filter (·.file = k + (i + 1)) = [] := by
        refine List.filter_eq_nil_iff.2 ?_
        intro x hx hk
        have hle := hfile x hx
        have heq := of_decide_eq_true hk
        omega
      rw [hnone, List.nil_append, show k + (i + 1) = k + 1 + i by omega]
      exact hrest.follows i job₀ job₁ hjob₀ hjob₁
  · intro x hx
    rw [List.length_cons]
    rcases List.mem_append.1 hx with hx | hx
    · have heq := hfile x hx
      omega
    · have hle := hrest.file x hx
      omega
  · intro x hx
    rcases List.mem_append.1 hx with hx | hx
    · exact hwrites x hx
    · exact hrest.writes x hx

/-- The loop stops at the first of the files. -/
theorem Kept.first (hvalid : next.Valid P (env.source file))
    (hfollows : Follows job.recorded sent next.recorded) (hfile : ∀ x ∈ sent, x.file = k)
    (hwrites : ∀ x ∈ writes, x.Valid P env)
    (hjobs : List.Forall₂ (fun file job => job.Valid P (env.source file)) files jobs) :
    Kept P env k (file :: files) (job :: jobs) (next :: jobs) sent writes := by
  have hkept := Kept.cons hvalid hfollows hfile hwrites (Kept.refl hjobs)
  rwa [List.append_nil, List.append_nil] at hkept

/-- The turns that jobs may still take. -/
def cost (jobs : List Job) : ℕ := (jobs.map fun job => job.left + 1).sum

/-- **The loop over the files keeps the jobs, and ends.** -/
theorem process_spec (hblank : ∀ text, strip text = [] → P text text)
    (h : List.Forall₂ (fun file job => job.Valid P (env.source file)) files jobs)
    (ht : ∀ t ∈ turns, t.Admits P) :
    Kept P env k files jobs (process env k files jobs turns).value
        (process env k files jobs turns).sent (process env k files jobs turns).writes ∧
      (process env k files jobs turns).outcome.Within (cost jobs) turns.length := by
  induction h generalizing k turns with
  | nil => exact ⟨.refl .nil, Nat.le_add_right _ _⟩
  | @cons file job files jobs hjob hjobs ih =>
    have hfirst := translate_spec (k := k) hblank hjob ht
    have hcost : cost (job :: jobs) = job.left + 1 + cost jobs := by
      rw [cost, List.map_cons, List.sum_cons]
      rfl
    unfold process
    rw [not_incomplete hjob.cover, if_neg Bool.false_ne_true, hcost]
    dsimp only
    have hstop := hfirst.within
    cases hover : (translate k (env.source file) turns job).outcome with
    | raised e => exact ⟨.first hfirst.valid hfirst.follows hfirst.file nofun hjobs, trivial⟩
    | waiting =>
      rw [hover] at hstop
      exact ⟨.first hfirst.valid hfirst.follows hfirst.file nofun hjobs, hstop.mono (by omega)⟩
    | finished rest =>
      obtain ⟨hall, hsub⟩ := hfirst.finished rest hover
      rw [hover] at hstop
      have hsecond : Written P env file rest _ _ := write_spec hfirst.valid hall
      have hfollows := hfirst.follows
      rw [← hsecond.recorded] at hfollows
      have hend := hsecond.within
      have hle : turns.length ≤ rest.length + job.left := hstop
      dsimp only
      cases hover' : (write file (translate k (env.source file) turns job).value rest).outcome with
      | raised e =>
        exact ⟨.first hsecond.valid hfollows hfirst.file hsecond.writes hjobs, trivial⟩
      | waiting =>
        rw [hover'] at hend
        refine ⟨.first hsecond.valid hfollows hfirst.file hsecond.writes hjobs, ?_⟩
        have hlt : rest.length < 1 := hend
        show turns.length < job.left + 1 + cost jobs
        omega
      | finished rest' =>
        rw [hover'] at hend
        have hadmits : ∀ t ∈ rest', t.Admits P := fun t hmem =>
          ht t (hsub (hsecond.finished rest' hover' hmem))
        obtain ⟨hkept, hwithin⟩ := ih (k := k + 1) hadmits
        refine ⟨.cons hsecond.valid hfollows hfirst.file hsecond.writes hkept, hwithin.mono ?_⟩
        have hle' : rest.length ≤ rest'.length + 1 := hend
        omega

/-! ### Calls -/

/-- The state belongs to the requests. -/
structure State.Valid (P : Text → Text → Prop) (env : Env) (sent : List Sent) (state : State) :
    Prop where
  /-- the jobs are valid -/
  jobs : List.Forall₂ (fun file job => job.Valid P (env.source file)) state.files state.jobs
  /-- every request is about a file -/
  file : ∀ x ∈ sent, x.file < state.files.length
  /-- the requests of a file follow its recorded parts -/
  follows : ∀ k job, state.jobs[k]? = some job →
    Follows [] (sent.filter (·.file = k)) job.recorded

/-- The outputs are complete, and what is saved belongs to the requests. -/
structure World.Valid (P : Text → Text → Prop) (env : Env) (w : World) : Prop where
  /-- the outputs are complete -/
  writes : ∀ x ∈ w.writes, x.Valid P env
  /-- without a state nothing was sent -/
  unsaved : w.saved = none → w.sent = []
  /-- a state belongs to the requests -/
  saved : ∀ state, w.saved = some state → state.Valid P env w.sent

variable {c : Call} {w : World}

theorem fresh_valid : (fresh env c).Valid P env [] := by
  refine ⟨List.forall₂_iff_get.2 ⟨?_, ?_⟩, nofun, ?_⟩
  · rw [fresh, List.length_mapIdx]
  · intro i h₁ h₂
    rw [List.get_eq_getElem, List.get_eq_getElem]
    simp only [fresh, List.getElem_mapIdx]
    exact ⟨spans_cover _ _, .nil, nofun⟩
  · intro k job hjob
    simp only [fresh, List.getElem?_mapIdx, Option.map_eq_some_iff] at hjob
    obtain ⟨f, -, rfl⟩ := hjob
    exact List.prefix_rfl

theorem World.Valid.state (h : w.Valid P env) :
    (w.saved.getD (fresh env c)).Valid P env w.sent := by
  cases hs : w.saved with
  | none =>
    rw [h.unsaved hs]
    exact fresh_valid
  | some state => exact h.saved state hs

/-- **A call keeps the world valid, and ends where its turns are enough.** -/
theorem run_spec (hblank : ∀ text, strip text = [] → P text text) (h : w.Valid P env)
    (ht : ∀ t ∈ c.turns, t.Admits P) : (run env c w).1.Valid P env := by
  have hstate := h.state (c := c)
  rw [run]
  cases c.refused with
  | some e => exact h
  | none =>
    dsimp only
    split
    · exact h
    · rename_i hmatch
      rw [not_or, not_not, not_not] at hmatch
      split
      · exact ⟨h.writes, nofun, fun state heq => Option.some.inj heq ▸ hstate⟩
      · have hjobs := hstate.jobs
        rw [hmatch.1] at hjobs
        obtain ⟨hkept, -⟩ := process_spec (k := 0) hblank hjobs ht
        refine ⟨?_, nofun, ?_⟩
        · intro x hx
          rcases List.mem_append.1 hx with hx | hx
          · exact h.writes x hx
          · exact hkept.writes x hx
        · rintro state ⟨⟩
          refine ⟨hmatch.1 ▸ hkept.valid, ?_, ?_⟩
          · intro x hx
            rcases List.mem_append.1 hx with hx | hx
            · exact hstate.file x hx
            · have hfile := (hkept.file x hx).2
              dsimp only
              rw [hmatch.1]
              omega
          · intro k job hjob
            rw [List.filter_append]
            have hlt := (List.getElem?_eq_some_iff.1 hjob).1
            have hlen := hkept.valid.length_eq.symm.trans hjobs.length_eq
            obtain ⟨old, hold⟩ : ∃ old, (w.saved.getD (fresh env c)).jobs[k]? = some old :=
              ⟨_, List.getElem?_eq_getElem (by dsimp only at hlt; omega)⟩
            have hfollows := hkept.follows k old job hold hjob
            rw [Nat.zero_add] at hfollows
            exact (hstate.follows k old hold).append hfollows

theorem after_valid (hblank : ∀ text, strip text = [] → P text text) {calls : List Call}
    (ht : ∀ c ∈ calls, ∀ t ∈ c.turns, t.Admits P) : (after env calls).Valid P env := by
  suffices hfold : ∀ w : World, w.Valid P env →
      (calls.foldl (fun w c => (run env c w).1) w).Valid P env from
    hfold {} ⟨nofun, fun _ => rfl, nofun⟩
  intro w h
  induction calls generalizing w with
  | nil => exact h
  | cons c calls ih =>
    exact ih (fun c' hc' => ht c' (List.mem_cons_of_mem _ hc')) _
      (run_spec hblank h (ht c List.mem_cons_self))

/-- A cover takes less than two turns for each of its characters. -/
theorem weight_le {a b : ℕ} {ss : List Span} (h : Cover a ss b) :
    (ss.map weight).sum + 2 * a ≤ 2 * b := by
  induction ss generalizing a with
  | nil =>
    obtain rfl := h
    exact Nat.le_of_eq (Nat.zero_add _)
  | cons s ss ih =>
    obtain ⟨rfl, hlt, hss⟩ := h
    have hle := ih hss
    rw [List.map_cons, List.sum_cons, weight]
    omega

theorem Job.Valid.left_le (h : job.Valid P source) : job.left ≤ 2 * source.length := by
  have hcover := h.cover
  rw [← List.take_append_drop job.parts.length job.spans] at hcover
  obtain ⟨c, -, hrest⟩ := cover_append.1 hcover
  have hle := weight_le hrest
  rw [Job.left]
  omega

/-- The turns that are enough for documents. -/
def bound (env : Env) (files : List Reference) : ℕ :=
  (files.map fun file => 2 * (env.source file).length + 1).sum

theorem cost_le (h : List.Forall₂ (fun file job => job.Valid P (env.source file)) files jobs) :
    cost jobs ≤ bound env files := by
  induction h with
  | nil => exact Nat.le_refl _
  | @cons file job files jobs hjob _ ih =>
    have hle := hjob.left_le
    rw [cost, bound, List.map_cons, List.sum_cons, List.map_cons, List.sum_cons]
    exact Nat.add_le_add (Nat.succ_le_succ hle) ih

/-- **A call with enough turns ends.** -/
theorem run_ends (hblank : ∀ text, strip text = [] → P text text) (h : w.Valid P env)
    (ht : ∀ t ∈ c.turns, t.Admits P) (hturns : bound env c.files ≤ c.turns.length) :
    (run env c w).2 ≠ .waiting := by
  have hstate := h.state (c := c)
  rw [run]
  cases c.refused with
  | some e => exact nofun
  | none =>
    dsimp only
    split
    · exact nofun
    · rename_i hmatch
      rw [not_or, not_not, not_not] at hmatch
      split
      · exact nofun
      · have hjobs := hstate.jobs
        rw [hmatch.1] at hjobs
        obtain ⟨-, hwithin⟩ := process_spec (k := 0) hblank hjobs ht
        dsimp only
        split
        · split
          · exact nofun
          · exact nofun
        · intro hwaiting
          rw [hwaiting] at hwithin
          have hlt : c.turns.length < cost (w.saved.getD (fresh env c)).jobs := hwithin
          have hle := cost_le hjobs
          omega

/-! ### The whole text -/

theorem Follows.spec {r r' : List Span} {xs : List Sent} (h : Follows r xs r') :
    (∀ x ∈ xs, r <+: x.recorded ∧ Cover 0 x.recorded x.span.1) ∧
      xs.Pairwise fun x y => x.recorded <+: y.recorded := by
  induction xs generalizing r with
  | nil => exact ⟨nofun, .nil⟩
  | cons x xs ih =>
    obtain ⟨hx, hcover, hxs⟩ := h
    obtain ⟨hmem, hpairwise⟩ := ih hxs
    refine ⟨?_, List.pairwise_cons.2 ⟨fun y hy => (hmem y hy).1, hpairwise⟩⟩
    intro y hy
    rcases List.mem_cons.1 hy with rfl | hy
    · exact ⟨hx, hcover⟩
    · exact ⟨hx.trans (hmem y hy).1, (hmem y hy).2⟩

/-- A relation of the requests of every file is one of those of the same file. -/
theorem pairwise_file {R : Sent → Sent → Prop} {xs : List Sent}
    (h : ∀ k, (xs.filter (·.file = k)).Pairwise R) :
    xs.Pairwise fun x y => x.file = y.file → R x y := by
  induction xs with
  | nil => exact .nil
  | cons x xs ih =>
    refine List.pairwise_cons.2 ⟨?_, ih fun k => ?_⟩
    · intro y hy hfile
      have hx := h x.file
      rw [List.filter_cons_of_pos (by simp)] at hx
      exact (List.pairwise_cons.1 hx).1 y (List.mem_filter.2 ⟨hy, decide_eq_true hfile.symm⟩)
    · exact (h k).sublist ((List.sublist_cons_self x xs).filter _)

theorem World.Valid.follows (h : w.Valid P env) (k : ℕ) :
    ∃ r, Follows [] (w.sent.filter (·.file = k)) r := by
  cases hs : w.saved with
  | none =>
    rw [h.unsaved hs]
    exact ⟨[], List.prefix_rfl⟩
  | some state =>
    have hstate := h.saved state hs
    by_cases hk : k < state.jobs.length
    · exact ⟨_, hstate.follows k _ (List.getElem?_eq_getElem hk)⟩
    · -- the file has no requests
      refine ⟨[], ?_⟩
      have hnone : w.sent.filter (·.file = k) = [] := by
        refine List.filter_eq_nil_iff.2 ?_
        intro x hx hfile
        have hlt := hstate.file x hx
        have heq := of_decide_eq_true hfile
        have hlength := hstate.jobs.length_eq
        omega
      rw [hnone]
      exact List.prefix_rfl

/-- The model returns what it is given, if it does not refuse it. -/
def Turn.Echoes (t : Turn) : Prop :=
  ∀ request r, t.reply request = .response r → r.finishReason = "stop" → r.content = some request

theorem Turn.Echoes.admits (h : t.Echoes) : t.Admits fun text part => part = text := by
  intro text r hspace hreply hstop
  rw [h _ r hreply hstop, Option.getD_some, strip_strip]
  exact frame_strip hspace

theorem Write.Valid.flatten {x : Write} (h : x.Valid (fun text part => part = text) env) :
    x.parts.flatten = env.source x.file := by
  have hparts : x.parts = x.spans.map (Span.slice (env.source x.file)) := by
    have hrel := h.parts
    generalize x.spans = spans at hrel
    generalize x.parts = parts at hrel
    induction hrel with
    | nil => rfl
    | cons hpart _ ih => rw [List.map_cons, hpart, ih]
  rw [hparts, h.cover.flatten, Span.slice, List.take_length, List.drop_zero]

/-- **The outputs are translations of the whole texts; no request is about a part that is recorded;
and the loops end.** -/
theorem translation_spec (env : Env) (calls : List Call) :
    (∀ x ∈ (after env calls).writes,
      Cover 0 x.spans (env.source x.file).length ∧
      (∀ i < (env.source x.file).length, x.spans.countP (·.contains i) = 1) ∧
      x.parts.length = x.spans.length ∧ x.content = unified x.parts.flatten ∧
      ((∀ c ∈ calls, ∀ t ∈ c.turns, t.Echoes) → x.content = unified (env.source x.file))) ∧
    (∀ x ∈ (after env calls).sent, ∀ s ∈ x.recorded, s.2 ≤ x.span.1) ∧
    ((after env calls).sent.Pairwise fun x y => x.file = y.file → x.recorded <+: y.recorded) ∧
    (∀ c : Call, bound env c.files ≤ c.turns.length → (run env c (after env calls)).2 ≠ .waiting) ∧
    ∀ (source : Text) (start stop : ℕ), 1 < stop - start →
      Cover start (splitRange source start stop) stop ∧
        ∀ s ∈ splitRange source start stop, s.2 - s.1 < stop - start := by
  have hworld : (after env calls).Valid (fun _ _ => True) env :=
    after_valid (fun _ _ => trivial) fun _ _ _ _ _ _ _ _ _ => trivial
  refine ⟨?_, ?_, ?_, ?_, fun source start stop h => splitRange_cover source h⟩
  · intro x hx
    have hwrite := hworld.writes x hx
    refine ⟨hwrite.cover, fun i hi => hwrite.cover.countP_contains (Nat.zero_le _) hi,
      hwrite.parts.length_eq.symm, hwrite.content.trans (newlines_eq _), ?_⟩
    intro hecho
    have hsame : (after env calls).Valid (fun text part => part = text) env :=
      after_valid (P := fun text part => part = text) (fun _ _ => rfl)
        fun c hc t ht => (hecho c hc t ht).admits
    have hwrite' := hsame.writes x hx
    rw [hwrite'.content, newlines_eq, hwrite'.flatten]
  · intro x hx s hs
    obtain ⟨r, hfollows⟩ := hworld.follows x.file
    have hcover := (hfollows.spec.1 x (List.mem_filter.2 ⟨hx, decide_eq_true rfl⟩)).2
    exact (hcover.mem hs).2.2
  · refine pairwise_file fun k => ?_
    obtain ⟨r, hfollows⟩ := hworld.follows k
    exact hfollows.spec.2
  · intro c hturns
    exact run_ends (fun _ _ => trivial) hworld (fun _ _ _ _ _ _ _ => trivial) hturns

/-! ### A translation that is resumed -/

namespace Sample

/-- A document of two paragraphs. -/
def disk : Env := ⟨fun _ => "ab\r\n\r\ncd ".toList⟩

/-- Its reference. -/
def note : Reference := ⟨"m.txt", "uploaded-text-1/source.txt", "1", "1", 9, 9⟩

/-- The model returns what it is given. -/
def echo : Turn := { reply := fun text => .response ⟨"stop", some text, false⟩ }

/-- The model refuses long texts. -/
def short : Turn where
  reply := fun text =>
    if 3 < text.length then .contextTooLarge else .response ⟨"stop", some text, false⟩

/-- A call with these turns. -/
def call (turns : List Turn) : Call where
  files := [note]
  limit := 4096
  path _ := "m_zh.txt"
  turns := turns
  reads _ := some "ab\n\ncd ".toList

theorem echo_echoes : echo.Echoes := by
  rintro request r ⟨⟩ -
  rfl

theorem short_echoes : short.Echoes := by
  intro request r hreply _
  simp only [short] at hreply
  split at hreply
  · cases hreply
  · cases hreply
    rfl

end Sample

/-- A piece is cut, its first half is recorded, and the next call translates the rest. -/
theorem translation_spec_resumed : ∃ x ∈ (after Sample.disk [Sample.call [Sample.short, Sample.short],
    Sample.call [Sample.echo, Sample.echo, Sample.echo]]).writes,
      x.content = unified "ab\r\n\r\ncd ".toList := by
  have hwrites : (after Sample.disk [Sample.call [Sample.short, Sample.short],
      Sample.call [Sample.echo, Sample.echo, Sample.echo]]).writes ≠ [] := by decide
  obtain ⟨x, hx⟩ := List.exists_mem_of_ne_nil _ hwrites
  refine ⟨x, hx, ((translation_spec _ _).1 x hx).2.2.2.2 ?_⟩
  intro c hc t ht
  simp only [List.mem_cons, List.not_mem_nil, or_false] at hc
  rcases hc with rfl | rfl
  · simp only [Sample.call, List.mem_cons, List.not_mem_nil, or_false, or_self] at ht
    rw [ht]
    exact Sample.short_echoes
  · simp only [Sample.call, List.mem_cons, List.not_mem_nil, or_false, or_self] at ht
    rw [ht]
    exact Sample.echo_echoes

end Companion

end PythonAI
