import Mathlib.Logic.Function.Basic

/-! # The token exchange of `pytagsfs.multithreading`

Each thread keeps a queue of tokens and holds at most its top one. A call is cut where
another thread can come in: the critical section under the exchange's lock,
`Token.release`, and `Token.acquire`, which blocks while another thread owns the token.
A token's `_owner` and its lock are one field, the thread that acquired it. -/
namespace PyTagsFs

namespace TokenExchange

/-- `TokenError` with its message, and the `IndexError` of popping an empty queue. -/
inductive ExchangeError where
  | tokenError (message : String)
  | indexError
  deriving DecidableEq, Repr

/-- The exchange's methods, as a thread's code calls them. -/
inductive Call (ι : Type) where
  | pushToken (id : ι)
  | popToken
  | releaseToken
  | reacquireToken
  deriving DecidableEq, Repr

/-- How far a thread is inside its current call. -/
inductive Pc (ι : Type) where
  | ready
  /-- The critical section is done: `prev.release()`, then `next.acquire()`, remain. -/
  | releasing (prev next : Option ι)
  /-- `next.acquire()` remains; it blocks while another thread owns the token. -/
  | acquiring (next : ι)
  deriving DecidableEq, Repr

structure Thread (ι : Type) where
  /-- `_owner_token_queues[get_ident()]`. -/
  queue : List ι
  pc : Pc ι
  /-- The calls the thread's code still makes. -/
  calls : List (Call ι)
  deriving DecidableEq, Repr

structure State (τ ι : Type) where
  /-- The thread that owns each token. -/
  owner : ι → Option τ
  threads : τ → Thread ι

variable {τ ι : Type}

/-! ## The calls -/

/-- The critical section of a call: the thread's new queue, and what it releases and acquires
afterwards. `pop_token` on an empty queue raises `IndexError`. -/
def Call.begin (q : List ι) : Call ι → Except ExchangeError (List ι × Pc ι)
  | .pushToken id => .ok (q ++ [id], .releasing q.getLast? (some id))
  | .popToken => match q.getLast? with
    | none => .error .indexError
    | some prev => .ok (q.dropLast, .releasing (some prev) q.dropLast.getLast?)
  | .releaseToken => .ok (q, .releasing q.getLast? none)
  | .reacquireToken => .ok (q, match q.getLast? with
    | none => .ready
    | some t => .acquiring t)

/-- What is left of a call once `prev` is released. -/
def Pc.afterRelease : Option ι → Pc ι
  | none => .ready
  | some t => .acquiring t

/-! ## The programs the decorators build -/

/-- `token_pushed(id)` around a body. -/
def tokenPushed (id : ι) (body : List (Call ι)) : List (Call ι) := .pushToken id :: body ++ [.popToken]

/-- `token_released` around a call with no exchange calls of its own. -/
def tokenReleased : List (Call ι) := [.releaseToken, .reacquireToken]

/-- Code made of decorated calls, one after another. -/
inductive Balanced : List (Call ι) → Prop where
  | nil : Balanced []
  | pushed (id : ι) {body rest : List (Call ι)} : Balanced body → Balanced rest →
      Balanced (tokenPushed id body ++ rest)
  | released {rest : List (Call ι)} : Balanced rest → Balanced (tokenReleased ++ rest)

/-- The calls left to a thread with `depth` tokens queued, inside a released section or not. -/
def Admissible : Nat → Bool → List (Call ι) → Prop
  | depth, false, [] => depth = 0
  | _, true, [] => False
  | depth, false, .pushToken _ :: cs => Admissible (depth + 1) false cs
  | 0, false, .popToken :: _ => False
  | depth + 1, false, .popToken :: cs => Admissible depth false cs
  | depth, false, .releaseToken :: cs => Admissible depth true cs
  | _, false, .reacquireToken :: _ => False
  | depth, true, .reacquireToken :: cs => Admissible depth false cs
  | _, true, _ :: _ => False

theorem Balanced.admissible_append {w : List (Call ι)} (hw : Balanced w) :
    ∀ (depth : Nat) (rest : List (Call ι)), Admissible depth false (w ++ rest) ↔ Admissible depth false rest := by
  induction hw with
  | nil => intro depth rest; rfl
  | pushed id _ _ ihb ihr =>
    intro depth rest
    simp only [tokenPushed, List.cons_append, List.append_assoc, List.singleton_append, List.nil_append]
    rw [Admissible, ihb, Admissible, ihr]
  | released _ ih =>
    intro depth rest
    simp only [tokenReleased, List.cons_append, List.nil_append]
    rw [Admissible, Admissible]
    exact ih depth rest

theorem Balanced.admissible {w : List (Call ι)} (hw : Balanced w) : Admissible 0 false w := by
  simpa [Admissible] using hw.admissible_append 0 []

/-! ## What a thread owns -/

/-- Thread `i` owns exactly the token `h` names. -/
def Owns (owner : ι → Option τ) (i : τ) (h : Option ι) : Prop := ∀ t, owner t = some i ↔ h = some t

/-- The token a thread owns between calls: the top of its queue, none in a released section. -/
def expected (q : List ι) (released : Bool) : Option ι := if released then none else q.getLast?

def ThreadInv (owner : ι → Option τ) (i : τ) (th : Thread ι) : Prop :=
  ∃ released, Admissible th.queue.length released th.calls ∧
    match th.pc with
    | .ready => Owns owner i (expected th.queue released)
    | .releasing prev next => Owns owner i prev ∧ next = expected th.queue released
    | .acquiring t => Owns owner i none ∧ some t = expected th.queue released

def Inv (s : State τ ι) : Prop := ∀ i, ThreadInv s.owner i (s.threads i)

theorem Owns.unique {owner : ι → Option τ} {i : τ} {h : Option ι} (ho : Owns owner i h) {t t' : ι}
    (ht : owner t = some i) (ht' : owner t' = some i) : t = t' :=
  Option.some.inj (((ho t).1 ht).symm.trans ((ho t').1 ht'))

/-- The invariant after the critical section of a call. -/
theorem ThreadInv.begin {owner : ι → Option τ} {i : τ} {q q' : List ι} {c : Call ι} {cs : List (Call ι)}
    {released : Bool} {pc : Pc ι} (hadm : Admissible q.length released (c :: cs))
    (ho : Owns owner i (expected q released)) (hb : c.begin q = .ok (q', pc)) :
    ThreadInv owner i ⟨q', pc, cs⟩ := by
  cases c with
  | pushToken id =>
    cases released <;> simp only [Admissible, Call.begin, Except.ok.injEq, Prod.mk.injEq] at hadm hb
    obtain ⟨rfl, rfl⟩ := hb
    exact ⟨false, by simpa using hadm, by simpa [expected] using ho, by simp [expected]⟩
  | popToken =>
    cases released
    · obtain ⟨k, hk⟩ : ∃ k, q.length = k + 1 := ⟨q.length - 1, by
        cases q with
        | nil => simp [Admissible] at hadm
        | cons _ _ => simp⟩
      rw [hk, Admissible] at hadm
      obtain ⟨prev, hprev⟩ : ∃ prev, q.getLast? = some prev :=
        Option.isSome_iff_exists.1 (List.getLast?_isSome.2 (List.ne_nil_of_length_eq_add_one hk))
      simp only [Call.begin, hprev, Except.ok.injEq, Prod.mk.injEq] at hb
      obtain ⟨rfl, rfl⟩ := hb
      refine ⟨false, by simpa [hk] using hadm, by simpa [expected, hprev] using ho, by simp [expected]⟩
    · simp [Admissible] at hadm
  | releaseToken =>
    cases released <;> simp only [Admissible, Call.begin, Except.ok.injEq, Prod.mk.injEq] at hadm hb
    obtain ⟨rfl, rfl⟩ := hb
    exact ⟨true, hadm, by simpa [expected] using ho, by simp [expected]⟩
  | reacquireToken =>
    cases released <;> simp only [Admissible, Call.begin, Except.ok.injEq, Prod.mk.injEq] at hadm hb
    obtain ⟨rfl, rfl⟩ := hb
    refine ⟨false, hadm, ?_⟩
    cases hq : q.getLast? with
    | none => simpa [expected, hq] using ho
    | some t => exact ⟨by simpa [expected] using ho, by simp [expected, hq]⟩

/-- The invariant once the previous token is released. -/
theorem ThreadInv.afterRelease {owner : ι → Option τ} {i : τ} {q : List ι} {cs : List (Call ι)}
    {released : Bool} {next : Option ι} (hadm : Admissible q.length released cs) (ho : Owns owner i none)
    (hn : next = expected q released) : ThreadInv owner i ⟨q, Pc.afterRelease next, cs⟩ := by
  refine ⟨released, hadm, ?_⟩
  cases next with
  | none => simpa [Pc.afterRelease, ← hn] using ho
  | some t => exact ⟨ho, hn⟩

/-- Thread `i` runs code between calls with `t` on top of its queue, outside a released
section: code that takes the token `t` to be its own. -/
def InSection (s : State τ ι) (i : τ) (t : ι) : Prop :=
  (s.threads i).pc = .ready ∧ (s.threads i).calls.head? ≠ some .reacquireToken ∧
    (s.threads i).queue.getLast? = some t

/-- The code of a thread has run to its end. -/
def Ended (th : Thread ι) : Prop := th.pc = .ready ∧ th.calls = []

theorem ThreadInv.owns_of_inSection {s : State τ ι} {i : τ} {t : ι} (hi : ThreadInv s.owner i (s.threads i))
    (h : InSection s i t) : s.owner t = some i := by
  obtain ⟨hready, hhead, htop⟩ := h
  obtain ⟨released, hadm, hpc⟩ := hi
  rw [hready] at hpc
  cases released
  · exact (hpc t).2 (by simpa [expected] using htop)
  · cases hc : (s.threads i).calls with
    | nil => rw [hc] at hadm; simp [Admissible] at hadm
    | cons c cs =>
      rw [hc] at hadm hhead
      cases c <;> simp_all [Admissible]

variable [DecidableEq ι]

theorem Owns.release {owner : ι → Option τ} {i : τ} {t : ι} (ho : Owns owner i (some t)) :
    Owns (Function.update owner t none) i none := by
  intro t'
  by_cases htt : t' = t
  · subst htt; simp
  · rw [Function.update_noteq htt, ho t']
    simp [Ne.symm htt]

theorem Owns.acquire {owner : ι → Option τ} {i : τ} {t : ι} (ho : Owns owner i none) :
    Owns (Function.update owner t (some i)) i (some t) := by
  intro t'
  by_cases htt : t' = t
  · subst htt; simp
  · rw [Function.update_noteq htt, ho t']
    simp [Ne.symm htt]

theorem update_owner_cases {owner : ι → Option τ} {i : τ} {t₀ : ι} {v : Option τ}
    (h₀ : owner t₀ = some i ∨ owner t₀ = none) (hv : v = some i ∨ v = none) (t : ι) :
    Function.update owner t₀ v t = owner t ∨ ((owner t = some i ∨ owner t = none) ∧
      (Function.update owner t₀ v t = some i ∨ Function.update owner t₀ v t = none)) := by
  by_cases htt : t = t₀
  · subst htt; exact .inr ⟨h₀, by simpa using hv⟩
  · exact .inl (Function.update_noteq htt _ _)

variable [DecidableEq τ]

/-! ## Steps and runs -/

/-- `Token.acquire`: `none` while another thread owns the token. -/
def tokenAcquire (owner : ι → Option τ) (i : τ) (t : ι) : Option (Except ExchangeError (ι → Option τ)) :=
  match owner t with
  | none => some (.ok (Function.update owner t (some i)))
  | some j => if j = i then some (.error (.tokenError "token already acquired")) else none

/-- `Token.release`. -/
def tokenRelease (owner : ι → Option τ) (i : τ) (t : ι) : Except ExchangeError (ι → Option τ) :=
  if owner t = some i then .ok (Function.update owner t none)
  else .error (.tokenError "token not acquired")

/-- One step of a thread: `none` when its code has ended or it is blocked in `acquire`. -/
def threadStep (owner : ι → Option τ) (i : τ) (th : Thread ι) :
    Option (Except ExchangeError ((ι → Option τ) × Thread ι)) :=
  match th.pc, th.calls with
  | .ready, [] => none
  | .ready, c :: cs => some ((c.begin th.queue).map fun (q, pc) => (owner, ⟨q, pc, cs⟩))
  | .releasing none next, _ => some (.ok (owner, { th with pc := Pc.afterRelease next }))
  | .releasing (some t) next, _ =>
    some ((tokenRelease owner i t).map fun owner' => (owner', { th with pc := Pc.afterRelease next }))
  | .acquiring t, _ => (tokenAcquire owner i t).map (Except.map fun owner' => (owner', { th with pc := .ready }))

def step (s : State τ ι) (i : τ) : Option (Except ExchangeError (State τ ι)) :=
  (threadStep s.owner i (s.threads i)).map
    (Except.map fun r => ⟨r.1, Function.update s.threads i r.2⟩)

def init (prog : τ → List (Call ι)) : State τ ι := ⟨fun _ => none, fun i => ⟨[], .ready, prog i⟩⟩

/-- The states some interleaving of the programs reaches, each step by any thread. -/
inductive Reachable (prog : τ → List (Call ι)) : State τ ι → Prop where
  | init : Reachable prog (init prog)
  | step {s s' : State τ ι} (i : τ) : Reachable prog s → step s i = some (.ok s') → Reachable prog s'

/-- The threads of `sched` step in turn; one that cannot step, or raises, is passed over. -/
def run (s : State τ ι) : List τ → State τ ι
  | [] => s
  | i :: sched => match step s i with
    | some (.ok s') => run s' sched
    | _ => run s sched

theorem reachable_run {prog : τ → List (Call ι)} :
    ∀ (sched : List τ) {s : State τ ι}, Reachable prog s → Reachable prog (run s sched)
  | [], _, h => h
  | i :: sched, s, h => by
    unfold run
    split
    · next s' hs => exact reachable_run sched (.step i h hs)
    · exact reachable_run sched h

/-! ## What one step keeps -/

/-- A step of thread `i` changes only who owns tokens that `i` owned or that were free, and
only to `i` or to nobody. -/
theorem threadStep_owner {owner owner' : ι → Option τ} {i : τ} {th th' : Thread ι}
    (h : threadStep owner i th = some (.ok (owner', th'))) :
    ∀ t, owner' t = owner t ∨ ((owner t = some i ∨ owner t = none) ∧ (owner' t = some i ∨ owner' t = none)) := by
  obtain ⟨q, pc, calls⟩ := th
  cases pc with
  | ready =>
    cases calls with
    | nil => simp [threadStep] at h
    | cons c cs =>
      cases hb : c.begin q <;> simp [threadStep, hb, Except.map] at h
      exact fun t => .inl (by rw [h.1])
  | releasing prev next =>
    cases prev with
    | none =>
      simp only [threadStep, Option.some.injEq, Except.ok.injEq, Prod.mk.injEq] at h
      exact fun t => .inl (by rw [h.1])
    | some t₀ =>
      simp only [threadStep, tokenRelease] at h
      split at h
      · next hown =>
        simp only [Except.map, Option.some.injEq, Except.ok.injEq, Prod.mk.injEq] at h
        rw [← h.1]
        exact update_owner_cases (.inl hown) (.inr rfl)
      · simp [Except.map] at h
  | acquiring t₀ =>
    simp only [threadStep, tokenAcquire] at h
    split at h
    · next hown =>
      simp only [Option.map_some', Except.map, Option.some.injEq, Except.ok.injEq, Prod.mk.injEq] at h
      rw [← h.1]
      exact update_owner_cases (.inr hown) (.inl rfl)
    · split at h <;> simp [Except.map] at h

/-- A step of another thread keeps what a thread owns. -/
theorem Owns.threadStep_other {owner owner' : ι → Option τ} {i j : τ} {th th' : Thread ι} {o : Option ι}
    (ho : Owns owner i o) (hij : j ≠ i) (h : threadStep owner j th = some (.ok (owner', th'))) :
    Owns owner' i o := by
  intro t
  rcases threadStep_owner h t with heq | ⟨hb, ha⟩
  · rw [heq, ho t]
  · have hb' : owner t ≠ some i := by rcases hb with hb | hb <;> rw [hb] <;> simp [hij]
    have ha' : owner' t ≠ some i := by rcases ha with ha | ha <;> rw [ha] <;> simp [hij]
    exact ⟨fun e => absurd e ha', fun e => absurd ((ho t).2 e) hb'⟩


/-- A thread's own step keeps its invariant. -/
theorem ThreadInv.of_threadStep {owner owner' : ι → Option τ} {i : τ} {th th' : Thread ι}
    (hi : ThreadInv owner i th) (h : threadStep owner i th = some (.ok (owner', th'))) :
    ThreadInv owner' i th' := by
  obtain ⟨q, pc, calls⟩ := th
  obtain ⟨released, hadm, hpc⟩ := hi
  cases pc with
  | ready =>
    cases calls with
    | nil => simp [threadStep] at h
    | cons c cs =>
      cases hb : c.begin q with
      | error e => simp [threadStep, hb, Except.map] at h
      | ok r =>
        simp only [threadStep, hb, Except.map, Option.some.injEq, Except.ok.injEq, Prod.mk.injEq] at h
        obtain ⟨rfl, rfl⟩ := h
        exact ThreadInv.begin hadm hpc hb
  | releasing prev next =>
    obtain ⟨ho, hn⟩ := hpc
    cases prev with
    | none =>
      simp only [threadStep, Option.some.injEq, Except.ok.injEq, Prod.mk.injEq] at h
      obtain ⟨rfl, rfl⟩ := h
      exact ThreadInv.afterRelease hadm ho hn
    | some t =>
      simp only [threadStep, tokenRelease, (ho t).2 rfl, if_true, Except.map, Option.some.injEq,
        Except.ok.injEq, Prod.mk.injEq] at h
      obtain ⟨rfl, rfl⟩ := h
      exact ThreadInv.afterRelease hadm ho.release hn
  | acquiring t =>
    obtain ⟨ho, hn⟩ := hpc
    have hfree : owner t ≠ some i := fun e => by simpa using (ho t).1 e
    simp only [threadStep, tokenAcquire] at h
    split at h
    · next hnone =>
      simp only [Option.map_some', Except.map, Option.some.injEq, Except.ok.injEq, Prod.mk.injEq] at h
      obtain ⟨rfl, rfl⟩ := h
      exact ⟨released, hadm, by rw [← hn]; exact ho.acquire⟩
    · split at h <;> simp [Except.map] at h

/-- Another thread's step keeps a thread's invariant. -/
theorem ThreadInv.of_threadStep_other {owner owner' : ι → Option τ} {i j : τ} {th th₀ th₀' : Thread ι}
    (hi : ThreadInv owner i th) (hij : j ≠ i) (h : threadStep owner j th₀ = some (.ok (owner', th₀'))) :
    ThreadInv owner' i th := by
  obtain ⟨released, hadm, hpc⟩ := hi
  refine ⟨released, hadm, ?_⟩
  revert hpc
  cases th.pc with
  | ready => exact fun ho => ho.threadStep_other hij h
  | releasing prev next => exact fun ⟨ho, hn⟩ => ⟨ho.threadStep_other hij h, hn⟩
  | acquiring t => exact fun ⟨ho, hn⟩ => ⟨ho.threadStep_other hij h, hn⟩

/-- A thread whose invariant holds never raises. -/
theorem ThreadInv.threadStep_ne_error {owner : ι → Option τ} {i : τ} {th : Thread ι}
    (hi : ThreadInv owner i th) (e : ExchangeError) : threadStep owner i th ≠ some (.error e) := by
  obtain ⟨q, pc, calls⟩ := th
  obtain ⟨released, hadm, hpc⟩ := hi
  cases pc with
  | ready =>
    cases calls with
    | nil => simp [threadStep]
    | cons c cs =>
      cases hb : c.begin q with
      | ok r => simp [threadStep, hb, Except.map]
      | error e' =>
        exfalso
        cases c with
        | popToken =>
          cases hq : q.getLast? with
          | none =>
            rw [List.getLast?_eq_none_iff] at hq
            subst hq
            cases released <;> simp [Admissible] at hadm
          | some _ => simp [Call.begin, hq] at hb
        | _ => simp [Call.begin] at hb
  | releasing prev next =>
    cases prev with
    | none => simp [threadStep]
    | some t => simp [threadStep, tokenRelease, (hpc.1 t).2 rfl, Except.map]
  | acquiring t =>
    have hfree : owner t ≠ some i := fun e => by simpa using (hpc.1 t).1 e
    simp only [threadStep, tokenAcquire]
    split
    · simp [Except.map]
    · next j hj =>
      have hji : j ≠ i := fun e => hfree (e ▸ hj)
      simp [hji]

/-- A thread with no step has ended, or waits for a token another thread owns. -/
theorem threadStep_eq_none {owner : ι → Option τ} {i : τ} {th : Thread ι} (h : threadStep owner i th = none) :
    (th.pc = .ready ∧ th.calls = []) ∨ ∃ t j, th.pc = .acquiring t ∧ owner t = some j ∧ j ≠ i := by
  obtain ⟨q, pc, calls⟩ := th
  cases pc with
  | ready => cases calls <;> simp_all [threadStep]
  | releasing prev next => cases prev <;> simp [threadStep] at h
  | acquiring t =>
    simp only [threadStep, tokenAcquire] at h
    split at h
    · simp at h
    · next j hj =>
      split at h
      · simp at h
      · next hji => exact .inr ⟨t, j, rfl, hj, hji⟩

/-- A thread that owns a token, under its invariant, has a step. -/
theorem ThreadInv.threadStep_isSome {owner : ι → Option τ} {i : τ} {th : Thread ι} (hi : ThreadInv owner i th)
    {t : ι} (ht : owner t = some i) : (threadStep owner i th).isSome := by
  rw [Option.isSome_iff_ne_none]
  intro hnone
  obtain ⟨released, hadm, hpc⟩ := hi
  rcases threadStep_eq_none hnone with ⟨hready, hnil⟩ | ⟨t', j, hacq, -, -⟩
  · rw [hready] at hpc
    rw [hnil] at hadm
    have hq := (hpc t).1 ht
    cases released
    · simp only [Admissible, List.length_eq_zero] at hadm
      simp [expected, hadm] at hq
    · simp [Admissible] at hadm
  · rw [hacq] at hpc
    simpa using (hpc.1 t).1 ht

/-! ## Every interleaving -/

theorem step_eq_ok {s s' : State τ ι} {i : τ} (h : step s i = some (.ok s')) :
    ∃ owner' th', threadStep s.owner i (s.threads i) = some (.ok (owner', th')) ∧
      s' = ⟨owner', Function.update s.threads i th'⟩ := by
  unfold step at h
  cases hs : threadStep s.owner i (s.threads i) with
  | none => simp [hs] at h
  | some r =>
    cases r with
    | error e => simp [hs, Except.map] at h
    | ok r => exact ⟨r.1, r.2, rfl, by simp [hs, Except.map] at h; exact h.symm⟩

theorem Inv.step {s s' : State τ ι} (hs : Inv s) {i : τ} (h : step s i = some (.ok s')) : Inv s' := by
  obtain ⟨owner', th', hst, rfl⟩ := step_eq_ok h
  intro j
  by_cases hji : j = i
  · subst hji
    simpa using (hs j).of_threadStep hst
  · simpa [hji] using (hs j).of_threadStep_other (Ne.symm hji) hst

theorem Reachable.inv {prog : τ → List (Call ι)} (hb : ∀ i, Balanced (prog i)) {s : State τ ι}
    (hs : Reachable prog s) : Inv s := by
  induction hs with
  | init => exact fun i => ⟨false, (hb i).admissible, by simp [TokenExchange.init, Owns, expected]⟩
  | step i _ hst ih => exact ih.step hst

/-- No call of any thread raises `TokenError` or `IndexError`, in any interleaving of code
built from `token_pushed` and `token_released`. -/
theorem exchange_never_raises (prog : τ → List (Call ι)) (hb : ∀ i, Balanced (prog i)) {s : State τ ι}
    (hs : Reachable prog s) (i : τ) (e : ExchangeError) : step s i ≠ some (.error e) := by
  unfold step
  cases h : threadStep s.owner i (s.threads i) with
  | none => simp
  | some r =>
    cases r with
    | ok r => simp [Except.map]
    | error e' => exact absurd h ((hs.inv hb i).threadStep_ne_error e')

/-- A thread owns at most one token at any time: what the module promises, "no thread can
acquire more than one lock at a time". -/
theorem thread_owns_at_most_one_token (prog : τ → List (Call ι)) (hb : ∀ i, Balanced (prog i))
    {s : State τ ι} (hs : Reachable prog s) (i : τ) {t t' : ι} (ht : s.owner t = some i)
    (ht' : s.owner t' = some i) : t = t' := by
  obtain ⟨released, -, hpc⟩ := hs.inv hb i
  revert hpc
  cases (s.threads i).pc with
  | ready => exact fun ho => ho.unique ht ht'
  | releasing prev next => exact fun ⟨ho, _⟩ => ho.unique ht ht'
  | acquiring n => exact fun ⟨ho, _⟩ => ho.unique ht ht'

/-- Code that runs with a token on top of its thread's queue, outside a released section,
owns the token; so no two threads run such code for one token at the same time, and the
code under `token_pushed(GLOBAL)` that assumes the global token runs alone. -/
theorem sections_are_exclusive (prog : τ → List (Call ι)) (hb : ∀ i, Balanced (prog i)) {s : State τ ι}
    (hs : Reachable prog s) {i j : τ} {t : ι} (hi : InSection s i t) (hj : InSection s j t) :
    s.owner t = some i ∧ i = j := by
  have h₁ := (hs.inv hb i).owns_of_inSection hi
  exact ⟨h₁, Option.some.inj (h₁.symm.trans ((hs.inv hb j).owns_of_inSection hj))⟩

/-- The exchange never deadlocks: while some thread's code has not ended, some thread has a
step that does not raise. A thread whose code has ended owns no token and leaves an empty
queue, so a later thread that gets the same identifier starts afresh. -/
theorem exchange_deadlock_free (prog : τ → List (Call ι)) (hb : ∀ i, Balanced (prog i)) {s : State τ ι}
    (hs : Reachable prog s) :
    ((∃ i, ¬Ended (s.threads i)) → ∃ i s', step s i = some (.ok s')) ∧
      ∀ i, Ended (s.threads i) → (s.threads i).queue = [] ∧ ∀ t, s.owner t ≠ some i := by
  have hok : ∀ i, (threadStep s.owner i (s.threads i)).isSome → ∃ s', step s i = some (.ok s') := by
    intro i hsome
    obtain ⟨r, hr⟩ := Option.isSome_iff_exists.1 hsome
    cases r with
    | error e => exact absurd hr ((hs.inv hb i).threadStep_ne_error e)
    | ok r => exact ⟨⟨r.1, Function.update s.threads i r.2⟩, by simp [step, hr, Except.map]⟩
  refine ⟨fun ⟨i, hi⟩ => ?_, fun i hend => ?_⟩
  · by_cases hsome : (threadStep s.owner i (s.threads i)).isSome
    · exact ⟨i, hok i hsome⟩
    · rcases threadStep_eq_none (Option.not_isSome_iff_eq_none.1 hsome) with hend | ⟨t, j, -, hj, -⟩
      · exact absurd hend hi
      · exact ⟨j, hok j ((hs.inv hb j).threadStep_isSome hj)⟩
  · obtain ⟨released, hadm, hpc⟩ := hs.inv hb i
    rw [hend.1] at hpc
    rw [hend.2] at hadm
    cases released
    · simp only [Admissible, List.length_eq_zero] at hadm
      exact ⟨hadm, fun t ht => by simpa [expected, hadm] using (hpc t).1 ht⟩
    · simp [Admissible] at hadm

/-- A FUSE callback under the global token `0` that releases it around an OS call, then
runs a file operation under the file's token `1`. -/
def callback : List (Call Nat) := tokenPushed 0 (tokenReleased ++ tokenPushed 1 [])

theorem callback_balanced : Balanced callback := .pushed 0 (.released (.pushed 1 .nil .nil)) .nil

/-- Two threads in the callback: the first owns the global token, the second waits for it. -/
def contended : State (Fin 2) Nat := run (TokenExchange.init fun _ => callback) [0, 0, 0, 1, 1, 1]

example : (step contended 1).isNone = true ∧ contended.owner 0 = some 0 := by decide

theorem contended_reachable : Reachable (fun _ => callback) contended := reachable_run _ .init

theorem contended_never_raises : (∀ i : Fin 2, Balanced ((fun _ => callback) i)) ∧
    Reachable (fun _ => callback) contended ∧ ∀ (i : Fin 2) (e : ExchangeError), step contended i ≠ some (.error e) :=
  ⟨fun _ => callback_balanced, contended_reachable,
    exchange_never_raises _ (fun _ => callback_balanced) contended_reachable⟩

theorem contended_owns_one : (∀ i : Fin 2, Balanced ((fun _ => callback) i)) ∧
    Reachable (fun _ => callback) contended ∧
      ∀ (i : Fin 2) (t t' : Nat), contended.owner t = some i → contended.owner t' = some i → t = t' :=
  ⟨fun _ => callback_balanced, contended_reachable, fun i _ _ =>
    thread_owns_at_most_one_token _ (fun _ => callback_balanced) contended_reachable i⟩

theorem contended_sections_exclusive : (∀ i : Fin 2, Balanced ((fun _ => callback) i)) ∧
    Reachable (fun _ => callback) contended ∧
      ∀ (i j : Fin 2) (t : Nat), InSection contended i t → InSection contended j t →
        contended.owner t = some i ∧ i = j :=
  ⟨fun _ => callback_balanced, contended_reachable, fun _ _ _ =>
    sections_are_exclusive _ (fun _ => callback_balanced) contended_reachable⟩

theorem contended_deadlock_free : (∀ i : Fin 2, Balanced ((fun _ => callback) i)) ∧
    Reachable (fun _ => callback) contended ∧
      ((∃ i, ¬Ended (contended.threads i)) → ∃ i s', step contended i = some (.ok s')) ∧
        ∀ i, Ended (contended.threads i) → (contended.threads i).queue = [] ∧ ∀ t, contended.owner t ≠ some i :=
  ⟨fun _ => callback_balanced, contended_reachable,
    exchange_deadlock_free _ (fun _ => callback_balanced) contended_reachable⟩

end TokenExchange

end PyTagsFs
