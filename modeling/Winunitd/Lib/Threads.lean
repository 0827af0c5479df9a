import Winunitd.Lib.Transition

/-
  Programs of concurrent workers over a shared state, and a
  rely-guarantee logic for them.

  A worker runs a `Prog`: a tree of atomic actions, each of
  which continues with the action's result.  The pool holds
  the rest of every worker's program; a worker's number is
  its place in the pool.  Actions and outside events may
  spawn workers.

  A `Protocol` says what the workers agree on.  Its
  `contract` is what holds of the shared state whenever a
  worker is about to take an action.  `Protocol.Ok` follows
  a program with arbitrary steps of the others between any
  two of its actions, and `Protocol.Valid.sound` derives from
  the proofs of the single programs that every action of
  every run is taken within its contract.

  Key definitions include:
    * `Prog`
    * `Threads`, `Threads.system`
    * `Protocol`, `Protocol.Ok`, `Protocol.Valid`

  Key theorems include:
    * `Protocol.Valid.sound`
    * `Protocol.Valid.contract`
-/

------------------------------------------------------------
-- Programs
------------------------------------------------------------

namespace Winunitd

namespace Lib

/-
  A program over actions `A`, where the action `a` answers
  with an `R a`.
-/
inductive Prog (A : Type) (R : A → Type) (α : Type) where
| pure (x : α) : Prog A R α
| act (a : A) (k : R a → Prog A R α) : Prog A R α

namespace Prog

variable {A : Type}
variable {R : A → Type}
variable {α β : Type}

/- Sequential composition. -/
def bind : Prog A R α → (α → Prog A R β) → Prog A R β
| .pure x, f => f x
| .act a k, f => .act a (fun r => (k r).bind f)

instance : Monad (Prog A R) where
  pure := .pure
  bind := .bind

/- The program that takes one action. -/
def call (a : A) : Prog A R (R a) :=
  .act a .pure

/- Every action that the program may take satisfies `P`. -/
def Forall (P : A → Prop) : Prog A R α → Prop
| .pure _ => True
| .act a k => P a ∧ ∀ r, Forall P (k r)

theorem forall_bind
    {P : A → Prop}
    {p : Prog A R α}
    {f : α → Prog A R β}
    (hp : p.Forall P)
    (hf : ∀ x, (f x).Forall P) :
    (p.bind f).Forall P := by
  induction p with
  | pure x => exact hf x
  | act a k ih => exact ⟨hp.1, fun r => ih r (hp.2 r)⟩

end Prog

------------------------------------------------------------
-- Worker Pools
------------------------------------------------------------

/-
  A concurrent program.  `exec w a o s` is worker `w` taking
  the action `a` with the outcome `o` chosen outside; it is
  undefined where the action has to wait.  A worker that ends
  with a task goes on as that task.
-/
structure Threads
    (S A E O T : Type)
    (R : A → Type) where
  init : S → Prop
  exec : Nat → (a : A) → O → S → Option (R a × S × List T)
  event : E → S → Option (S × List T)
  code : T → Prog A R (Option T)

/- A shared state and the rest of every worker's program. -/
structure Config
    (S A T : Type)
    (R : A → Type) where
  shared : S
  pool : List (Prog A R (Option T))

/- What happens next. -/
inductive Threads.Label (E O : Type) where
| run (w : Nat) (o : O)
| event (e : E)

namespace Threads

variable {S A E O T : Type}
variable {R : A → Type}
variable (L : Threads S A E O T R)

/- One step of a worker or one outside event. -/
def step (c : Config S A T R) :
    Label E O → Option (Config S A T R)
| .run w o =>
    match c.pool[w]? with
    | some (.act a k) =>
        match L.exec w a o c.shared with
        | some (r, s, ts) =>
            some ⟨s, c.pool.set w (k r) ++ ts.map L.code⟩
        | none => none
    | some (.pure (some t)) =>
        some ⟨c.shared, c.pool.set w (L.code t)⟩
    | some (.pure none) => none
    | none => none
| .event e =>
    match L.event e c.shared with
    | some (s, ts) => some ⟨s, c.pool ++ ts.map L.code⟩
    | none => none

/- All runs, from an initial state and an empty pool. -/
def system : System (Config S A T R) (Label E O) where
  init c := L.init c.shared ∧ c.pool = []
  step := L.step

end Threads

------------------------------------------------------------
-- Protocols
------------------------------------------------------------

/-
  What the workers of a concurrent program agree on.

  `known` holds at every action for reasons established
  elsewhere.  `cond` and `econd` restrict the runs that are
  considered.  `rely w` is what the steps of others may do
  as seen by worker `w`, `fresh w` is what holds of a number
  that no worker has yet, and `pre` is what holds when a
  task starts.
-/
structure Protocol
    (S A E O T : Type)
    (R : A → Type) where
  known : Nat → A → S → Prop
  cond : Nat → A → O → S → Prop
  econd : E → S → Prop
  inv : S → Prop
  fresh : Nat → S → Prop
  rely : Nat → S → S → Prop
  contract : Nat → A → S → Prop
  pre : T → Nat → S → Prop

namespace Protocol

variable {S A E O T : Type}
variable {R : A → Type}
variable (L : Threads S A E O T R)
variable (P : Protocol S A E O T R)
variable {α β : Type}

/-
  Worker `w` may run the program from the given state: with
  steps of the others before each action, the action is
  within its contract, and the end satisfies `Q`.
-/
def Ok
    (w : Nat)
    (Q : α → S → Prop) :
    Prog A R α → S → Prop
| .pure x, s => Q x s
| .act a k, s =>
    ∀ s', P.inv s' → P.rely w s s' → P.known w a s' →
      P.contract w a s' ∧
        ∀ o r s'' ts, P.cond w a o s' →
          L.exec w a o s' = some (r, s'', ts) →
          P.inv s'' → Ok w Q (k r) s''

/- Any worker may run the program from any state. -/
def Safe (p : Prog A R α) : Prop :=
  ∀ w s, P.Ok L w (fun _ _ => True) p s

/- A worker that ends may go on as the task it ends with. -/
def Goes (w : Nat) (x : Option T) (s : S) : Prop :=
  ∀ s', P.inv s' → P.rely w s s' →
    ∀ t, x = some t → P.pre t w s'

/- The steps that the protocol considers. -/
def Admits
    (c : Config S A T R) :
    Threads.Label E O → Prop
| .run w o =>
    ∀ a k, c.pool[w]? = some (.act a k) →
      P.cond w a o c.shared
| .event e => P.econd e c.shared

/- The obligations of a protocol. -/
structure Valid : Prop where
  rely_refl : ∀ w s, P.rely w s s
  rely_trans :
    ∀ w s t u, P.rely w s t → P.rely w t u → P.rely w s u
  init : ∀ s, L.init s → P.inv s ∧ ∀ w, P.fresh w s
  exec :
    ∀ w a o s r s' ts,
      P.inv s → P.known w a s → P.contract w a s →
      P.cond w a o s → L.exec w a o s = some (r, s', ts) →
        P.inv s' ∧
        (∀ v, v ≠ w → P.rely v s s') ∧
        (∀ v, v ≠ w → P.fresh v s → P.fresh v s') ∧
        ∀ t ∈ ts, ∀ v, P.fresh v s' → P.pre t v s'
  event :
    ∀ e s s' ts,
      P.inv s → P.econd e s → L.event e s = some (s', ts) →
        P.inv s' ∧
        (∀ v, P.rely v s s') ∧
        (∀ v, P.fresh v s → P.fresh v s') ∧
        ∀ t ∈ ts, ∀ v, P.fresh v s' → P.pre t v s'
  code :
    ∀ t w s, P.inv s → P.pre t w s →
      P.Ok L w (P.Goes w) (L.code t) s

------------------------------------------------------------
-- Rules For Programs
------------------------------------------------------------

variable {L P}

variable {w : Nat}
variable {s : S}
variable {p : Prog A R α}

/- Consequence. -/
theorem Ok.mono
    {Q Q' : α → S → Prop}
    (hQ : ∀ x s, Q x s → Q' x s)
    (h : P.Ok L w Q p s) :
    P.Ok L w Q' p s := by
  induction p generalizing s with
  | pure x => exact hQ x s h
  | act a k ih =>
      intro s' hInv hRely hKnown
      rcases h s' hInv hRely hKnown with ⟨hContract, hNext⟩
      refine ⟨hContract, ?_⟩
      intro o r s'' ts hCond hExec hInv'
      exact ih r (hNext o r s'' ts hCond hExec hInv')

variable {f : α → Prog A R β}

/- Sequential composition. -/
theorem Ok.bind
    {Q : α → S → Prop}
    {Q' : β → S → Prop}
    (h : P.Ok L w Q p s)
    (hf : ∀ x s, Q x s → P.Ok L w Q' (f x) s) :
    P.Ok L w Q' (p.bind f) s := by
  induction p generalizing s with
  | pure x => exact hf x s h
  | act a k ih =>
      intro s' hInv hRely hKnown
      rcases h s' hInv hRely hKnown with ⟨hContract, hNext⟩
      refine ⟨hContract, ?_⟩
      intro o r s'' ts hCond hExec hInv'
      exact ih r (hNext o r s'' ts hCond hExec hInv')

variable {Q : β → S → Prop}
variable {a : A}

/- A program that begins with one action. -/
theorem Ok.call
    {k : R a → Prog A R β}
    (h :
      ∀ s', P.inv s' → P.rely w s s' → P.known w a s' →
        P.contract w a s' ∧
          ∀ o r s'' ts, P.cond w a o s' →
            L.exec w a o s' = some (r, s'', ts) →
            P.inv s'' → P.Ok L w Q (k r) s'') :
    P.Ok L w Q (Prog.call a >>= k) s :=
  h

/- An action that may always be taken, whatever it answers. -/
theorem Ok.next
    {k : R a → Prog A R β}
    (hContract : ∀ s, P.contract w a s)
    (hk : ∀ r s, P.Ok L w Q (k r) s) :
    P.Ok L w Q (Prog.call a >>= k) s :=
  Ok.call (fun s' _ _ _ =>
    ⟨hContract s', fun _ r s'' _ _ _ _ => hk r s''⟩)

theorem Safe.bind
    (hp : P.Safe L p)
    (hf : ∀ x, P.Safe L (f x)) :
    P.Safe L (p.bind f) :=
  fun w s => (hp w s).bind (fun x s' _ => hf x w s')

theorem Safe.call
    {k : R a → Prog A R β}
    (hContract : ∀ w s, P.contract w a s)
    (hk : ∀ r, P.Safe L (k r)) :
    P.Safe L (Prog.call a >>= k) :=
  fun w _ => Ok.next (hContract w) (fun r s => hk r w s)

variable {F : S → Prop}

/-
  A program all of whose actions are within their contract
  and keep `F` runs anywhere that `F` holds.
-/
theorem Ok.of_forall
    {N : A → Prop}
    (hRely : ∀ s s', P.inv s' → F s → P.rely w s s' → F s')
    (hAct :
      ∀ a s, N a → P.inv s → F s → P.known w a s →
        P.contract w a s ∧
          ∀ o r s' ts, P.cond w a o s →
            L.exec w a o s = some (r, s', ts) →
            P.inv s' → F s')
    (hp : p.Forall N)
    (hs : F s) :
    P.Ok L w (fun _ s => F s) p s := by
  induction p generalizing s with
  | pure x => exact hs
  | act a k ih =>
      intro s' hInv hR hKnown
      have hs' : F s' := hRely s s' hInv hs hR
      rcases hAct a s' hp.1 hInv hs' hKnown with
        ⟨hContract, hNext⟩
      refine ⟨hContract, ?_⟩
      intro o r s'' ts hCond hExec hInv'
      exact
        ih r (hp.2 r) (hNext o r s'' ts hCond hExec hInv')

/- What a worker has established survives the others. -/
theorem Ok.stable
    (hTrans :
      ∀ s t u,
        P.rely w s t → P.rely w t u → P.rely w s u)
    {p : Prog A R (Option T)}
    {s s' : S}
    (h : P.Ok L w (P.Goes w) p s)
    (hRely : P.rely w s s') :
    P.Ok L w (P.Goes w) p s' := by
  cases p with
  | pure x | act a k =>
      intro t hInv hNext
      exact h t hInv (hTrans _ _ _ hRely hNext)

------------------------------------------------------------
-- Soundness
------------------------------------------------------------

/- What a valid protocol keeps in every configuration. -/
structure Holds
    (L : Threads S A E O T R)
    (P : Protocol S A E O T R)
    (c : Config S A T R) : Prop where
  inv : P.inv c.shared
  ok :
    ∀ w p, c.pool[w]? = some p →
      P.Ok L w (P.Goes w) p c.shared
  fresh : ∀ w, c.pool.length ≤ w → P.fresh w c.shared

variable {ps : List (Prog A R (Option T))}

/- Numbers of the workers that join a pool. -/
theorem getElem?_append_map
    {ts : List T}
    {v : Nat}
    {p : Prog A R (Option T)}
    (h : (ps ++ ts.map L.code)[v]? = some p) :
    ps[v]? = some p ∨
      ∃ t ∈ ts, p = L.code t ∧ ps.length ≤ v := by
  rcases Nat.lt_or_ge v ps.length with hLt | hGe
  · rw [List.getElem?_append_left hLt] at h
    exact Or.inl h
  · rw [List.getElem?_append_right hGe] at h
    have hMem := List.mem_of_getElem? h
    rcases List.mem_map.mp hMem with ⟨t, ht, rfl⟩
    exact Or.inr ⟨t, ht, rfl, hGe⟩

/- Spawned workers join a pool of workers that are ok. -/
theorem Holds.spawn
    (hValid : P.Valid L)
    {ts : List T}
    (hInv : P.inv s)
    (hOk :
      ∀ v p, ps[v]? = some p → P.Ok L v (P.Goes v) p s)
    (hFresh : ∀ v, ps.length ≤ v → P.fresh v s)
    (hPre : ∀ t ∈ ts, ∀ v, P.fresh v s → P.pre t v s) :
    Holds L P ⟨s, ps ++ ts.map L.code⟩ where
  inv := hInv
  ok := by
    intro v p hp
    rcases getElem?_append_map hp with hOld | hNew
    · exact hOk v p hOld
    · rcases hNew with ⟨t, ht, rfl, hv⟩
      exact hValid.code t v s hInv (hPre t ht v (hFresh v hv))
  fresh := by
    intro v hv
    apply hFresh
    simp only [List.length_append] at hv
    omega

variable {c d : Config S A T R}

/- A worker's step keeps what the protocol keeps. -/
theorem Holds.run
    (hValid : P.Valid L)
    (hc : Holds L P c)
    {o : O}
    (hKnown :
      ∀ a k, c.pool[w]? = some (.act a k) →
        P.known w a c.shared)
    (hCond : P.Admits c (.run w o))
    (hStep : L.step c (.run w o) = some d) :
    Holds L P d := by
  simp only [Threads.step] at hStep
  have hLen : ∀ p, c.pool[w]? = some p → w < c.pool.length :=
    fun p hp => (List.getElem?_eq_some_iff.mp hp).1
  split at hStep
  next a k hp =>
    split at hStep
    next r s ts hExec =>
      cases hStep
      have hSelf := hc.ok w _ hp
      rcases hSelf c.shared hc.inv
          (hValid.rely_refl w c.shared) (hKnown a k hp) with
        ⟨hContract, hNext⟩
      rcases hValid.exec w a o c.shared r s ts hc.inv
          (hKnown a k hp) hContract (hCond a k hp) hExec with
        ⟨hInv, hRely, hFresh, hPre⟩
      apply Holds.spawn hValid hInv _ _ hPre
      · intro v p hv
        by_cases hvw : v = w
        · subst hvw
          rw [List.getElem?_set_self (hLen _ hp)] at hv
          cases hv
          exact hNext o r s ts (hCond a k hp) hExec hInv
        · rw [List.getElem?_set_ne (Ne.symm hvw)] at hv
          exact
            (hc.ok v p hv).stable
              (hValid.rely_trans v) (hRely v hvw)
      · intro v hv
        rw [List.length_set] at hv
        have hvw : v ≠ w := by
          have := hLen _ hp
          omega
        exact hFresh v hvw (hc.fresh v hv)
    next => cases hStep
  next t hp =>
    cases hStep
    have hPre : P.pre t w c.shared :=
      hc.ok w _ hp c.shared hc.inv
        (hValid.rely_refl w c.shared) t rfl
    refine ⟨hc.inv, ?_, ?_⟩
    · intro v p hv
      by_cases hvw : v = w
      · subst hvw
        rw [List.getElem?_set_self (hLen _ hp)] at hv
        cases hv
        exact hValid.code t v c.shared hc.inv hPre
      · rw [List.getElem?_set_ne (Ne.symm hvw)] at hv
        exact hc.ok v p hv
    · intro v hv
      rw [List.length_set] at hv
      exact hc.fresh v hv
  next => cases hStep
  next => cases hStep

/- An outside event keeps what the protocol keeps. -/
theorem Holds.event
    (hValid : P.Valid L)
    (hc : Holds L P c)
    {e : E}
    (hCond : P.econd e c.shared)
    (hStep : L.step c (.event e) = some d) :
    Holds L P d := by
  simp only [Threads.step] at hStep
  split at hStep
  next s ts hEvent =>
    cases hStep
    rcases hValid.event e c.shared s ts hc.inv hCond hEvent with
      ⟨hInv, hRely, hFresh, hPre⟩
    apply Holds.spawn hValid hInv _ _ hPre
    · intro v p hv
      exact
        (hc.ok v p hv).stable (hValid.rely_trans v) (hRely v)
    · intro v hv
      exact hFresh v (hc.fresh v hv)
  next => cases hStep

/- The facts that hold at every action of every run. -/
def Known
    (L : Threads S A E O T R)
    (K : Nat → A → S → Prop) : Prop :=
  ∀ c, L.system.Reachable c →
    ∀ w a k, c.pool[w]? = some (.act a k) → K w a c.shared

/- A valid protocol is kept along every run it considers. -/
theorem Valid.sound
    (hValid : P.Valid L)
    (hKnown : Known L P.known)
    (hc : L.system.ReachableWhere P.Admits c) :
    Holds L P c := by
  apply System.reachableWhere_invariant _ _ hc
  · intro c hInit
    rcases hInit with ⟨hs, hPool⟩
    rcases hValid.init c.shared hs with ⟨hInv, hFresh⟩
    refine ⟨hInv, ?_, fun w _ => hFresh w⟩
    intro w p hp
    rw [hPool] at hp
    cases hp
  · intro c l d hReach hHolds hAdm hStep
    cases l with
    | run w o =>
        exact
          hHolds.run hValid (hKnown c hReach.reachable w) hAdm
            hStep
    | event e => exact hHolds.event hValid hAdm hStep

/- A protocol without conditions considers every run. -/
theorem admitted
    (hCond : ∀ w a o s, P.cond w a o s)
    (hEvent : ∀ e s, P.econd e s)
    (hc : L.system.Reachable c) :
    L.system.ReachableWhere P.Admits c := by
  rcases hc with ⟨c₀, hInit, hPath⟩
  refine ⟨c₀, hInit, hPath.mono ?_⟩
  intro c' l _
  cases l with
  | run w o => exact fun a _ _ => hCond w a o c'.shared
  | event e => exact hEvent e c'.shared

/- Every action is taken within its contract. -/
theorem Valid.contract
    (hValid : P.Valid L)
    (hKnown : Known L P.known)
    (hc : L.system.ReachableWhere P.Admits c)
    {k : R a → Prog A R (Option T)}
    (hp : c.pool[w]? = some (.act a k)) :
    P.contract w a c.shared := by
  have hHolds := hValid.sound hKnown hc
  exact
    (hHolds.ok w _ hp c.shared hHolds.inv
      (hValid.rely_refl w c.shared)
      (hKnown c hc.reachable w a k hp)).1

/- What every action within its contract does to the state is
   done by every step. -/
theorem Valid.step_relates
    (hValid : P.Valid L)
    (hKnown : Known L P.known)
    {G : S → S → Prop}
    (hRefl : ∀ s, G s s)
    (hExec :
      ∀ w a o s r s' ts, P.inv s → P.contract w a s →
        L.exec w a o s = some (r, s', ts) → G s s')
    (hEvent :
      ∀ e s s' ts, P.inv s → L.event e s = some (s', ts) → G s s')
    (hc : L.system.ReachableWhere P.Admits c)
    {l : Threads.Label E O}
    (hStep : L.step c l = some d) :
    G c.shared d.shared := by
  have hInv := (hValid.sound hKnown hc).inv
  cases l with
  | run w o =>
      simp only [Threads.step] at hStep
      split at hStep
      next a k hp =>
        split at hStep
        next r s ts hX =>
          cases hStep
          exact hExec w a o _ r s ts hInv
            (hValid.contract hKnown hc hp) hX
        next => cases hStep
      next => cases hStep; exact hRefl _
      next => cases hStep
      next => cases hStep
  | event e =>
      simp only [Threads.step] at hStep
      split at hStep
      next s ts hX =>
        cases hStep
        exact hEvent e _ s ts hInv hX
      next => cases hStep

end Protocol

end Lib

end Winunitd
