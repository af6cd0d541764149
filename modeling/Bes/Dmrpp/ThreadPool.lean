import Bes.Lib.Run

/-! The readers that share one thread counter. Each reader works off a queue with
at most `maxThreads` threads counted over all readers: it starts threads while the
counter allows, then waits in `get_next_future` for one of its own futures. One
step of the model is one thread start, one completion or one collected future; a future
that failed is collected in two, since `futures.clear()` waits for the other threads of
the reader before the counter is set to zero. -/
namespace Bes.Dmrpp.ThreadPool
open Lib.Run List Option

/-- What `wait_for` and `get` would find. -/
inductive FutureState
  | running
  | succeeded
  | failed
deriving DecidableEq

/-- Where a reader is: in the loop that starts threads, in `get_next_future`, in the
catch block there, in its own catch block, or gone. -/
inductive Phase
  | starting
  | scanning
  | clearing
  | draining
  | finished
deriving DecidableEq

/-- One reader. `work` is the length of its queue. `countsFirst` tells whether its
start function counts the thread before the call of `std::async`; only
`start_one_chunk_unconstrained_compute_thread` counts after it. -/
structure Party where
  futures : List FutureState
  work : Nat
  phase : Phase
  countsFirst : Bool
deriving DecidableEq

/-- The shared `atomic_uint` and the readers. -/
structure Pool where
  counter : UInt32
  parties : List Party
deriving DecidableEq

inductive Action
  | start
  | startThrows
  | leaveStarting
  | finish (i : Nat) (ok : Bool)
  | collect (i : Nat)
  | reset
  | drain
deriving DecidableEq

def partyStep (maxThreads counter : UInt32) (party : Party) : Action → Option (UInt32 × Party)
  | .start =>
      if party.phase = .starting ∧ 0 < party.work ∧ counter < maxThreads then
        some (counter + 1, { party with
          futures := party.futures ++ [.running], work := party.work - 1 })
      else none
  -- `std::async` cannot make a thread; the exception reaches the catch block
  | .startThrows =>
      if party.phase = .starting ∧ 0 < party.work ∧ counter < maxThreads then
        some (if party.countsFirst then counter + 1 else counter, { party with phase := .draining })
      else none
  -- the queue is empty or a thread was refused: back to the head of the loop
  | .leaveStarting =>
      if party.phase = .starting ∧ (party.work = 0 ∨ ¬ counter < maxThreads) then
        some (counter, { party with
          phase := if party.futures ≠ [] then .scanning
            else if party.work = 0 then .finished else .starting })
      else none
  | .finish i ok =>
      if party.futures[i]? = some .running then
        some (counter, { party with
          futures := party.futures.set i (if ok then .succeeded else .failed) })
      else none
  -- the scan may pass a future just before it gets ready, so any ready one is found
  | .collect i =>
      if party.phase = .scanning then
        match party.futures[i]? with
        | some .succeeded =>
            some (counter - 1, { party with futures := party.futures.eraseIdx i, phase := .starting })
        | some .failed => some (counter, { party with phase := .clearing })
        | _ => none
      else none
  -- `clear` has waited for the threads that were running
  | .reset =>
      if party.phase = .clearing ∧ .running ∉ party.futures then
        some (0, { party with futures := [], phase := .finished })
      else none
  -- one round of the catch block; a `get` that throws leaves it
  | .drain =>
      if party.phase = .draining then
        match party.futures.getLast? with
        | none => some (counter, { party with phase := .finished })
        | some .succeeded => some (counter, { party with futures := party.futures.dropLast })
        | some .failed => some (counter, { party with futures := [], phase := .finished })
        | some .running => none
      else none

inductive Event
  | enter (work : Nat) (countsFirst : Bool)
  | act (p : Nat) (action : Action)
deriving DecidableEq

def step (maxThreads : UInt32) (pool : Pool) : Event → Option Pool
  | .enter work countsFirst =>
      some { pool with parties := pool.parties ++ [⟨[], work, .starting, countsFirst⟩] }
  | .act p action => do
      let party ← pool.parties[p]?
      let (counter, party) ← partyStep maxThreads pool.counter party action
      some ⟨counter, pool.parties.set p party⟩

def initial : Pool := ⟨0, []⟩

def Pool.held (pool : Pool) : Nat := (pool.parties.map fun party => party.futures.length).sum

def Event.Completes : Event → Prop
  | .act _ .leaveStarting => True
  | .act _ (.finish _ _) => True
  | .act _ (.collect _) => True
  | .act _ .reset => True
  | _ => False

def Grantable (maxThreads : UInt32) (pool : Pool) : Prop :=
  ∀ (p : Nat) (party : Party), pool.parties[p]? = some party →
    party.phase = .starting ∨ party.phase = .scanning → 0 < party.work →
    .failed ∉ party.futures →
    ∃ events pool', (∀ e ∈ events, Event.Completes e) ∧
      run (step maxThreads) pool events = some pool' ∧
      (step maxThreads pool' (.act p .start)).isSome

structure Accounted (maxThreads : UInt32) (pool : Pool) : Prop where
  counter_eq : pool.counter.toNat = pool.held
  counter_le : pool.counter ≤ maxThreads
  grantable : Grantable maxThreads pool

/-- A step that keeps the accounting exact: no start that has counted its thread
throws, no catch block has a future to drain, and the counter is set to zero only
when no other reader holds a future. -/
def SoundFor (pool : Pool) (p : Nat) (party : Party) : Action → Prop
  | .startThrows => party.countsFirst = false
  | .drain => party.futures = []
  | .reset => ∀ q < pool.parties.length, q ≠ p → ∀ other ∈ pool.parties[q]?, other.futures = []
  | _ => True

instance (pool : Pool) (p : Nat) (party : Party) : DecidablePred (SoundFor pool p party)
  | .startThrows => inferInstanceAs (Decidable (party.countsFirst = false))
  | .drain => inferInstanceAs (Decidable (party.futures = []))
  | .reset => inferInstanceAs (Decidable
      (∀ q < pool.parties.length, q ≠ p → ∀ other ∈ pool.parties[q]?, other.futures = []))
  | .start | .leaveStarting | .finish _ _ | .collect _ => isTrue trivial

def Sound (pool : Pool) : Event → Prop
  | .enter _ _ => True
  | .act p action => ∀ party ∈ pool.parties[p]?, SoundFor pool p party action

instance (pool : Pool) : DecidablePred (Sound pool)
  | .enter _ _ => isTrue trivial
  | .act p action => inferInstanceAs (Decidable
      (∀ party ∈ pool.parties[p]?, SoundFor pool p party action))

variable {counter : UInt32} {party : Party} {pool : Pool}

theorem toNat_add_one (hlt : counter < maxThreads) : (counter + 1).toNat = counter.toNat + 1 := by
  have hmax := UInt32.lt_iff_toNat_lt.mp hlt
  have hbd := maxThreads.toNat_lt
  rw [UInt32.toNat_add]
  exact Nat.mod_eq_of_lt (by simp only [UInt32.toNat_one]; omega)

theorem toNat_sub_one (hpos : 0 < counter.toNat) : (counter - 1).toNat = counter.toNat - 1 := by
  apply UInt32.toNat_sub_of_le
  exact hpos

def Party.drains (party : Party) : Nat :=
  if party.phase = .draining then party.futures.length else 0

structure Party.Sane (party : Party) : Prop where
  finished : party.phase = .finished → party.futures = []
  scanning : party.phase = .scanning → party.futures ≠ []

def Calm (party : Party) : Action → Prop
  | .startThrows => party.countsFirst = false
  | .drain => party.futures = []
  | _ => True

structure Moves (maxThreads counter : UInt32) (party : Party) (counter' : UInt32)
    (party' : Party) : Prop where
  balance : counter'.toNat + party.futures.length = counter.toNat + party'.futures.length
  bound : counter'.toNat ≤ counter.toNat ∨ counter'.toNat ≤ maxThreads.toNat
  drains : party'.drains = party.drains ∨ counter'.toNat < maxThreads.toNat
  sane : party'.Sane

variable {p : Nat}

theorem partyStep_moves (hheld : party.futures.length ≤ counter.toNat)
    (hsan : party.Sane) (hclm : Calm party action) (hreset : action ≠ .reset)
    (hstep : partyStep maxThreads counter party action = some (counter', party')) :
    Moves maxThreads counter party counter' party' := by
  cases action with
  | start =>
    simp only [partyStep] at hstep
    split at hstep
    next hgua =>
      cases hstep
      have hcou := toNat_add_one hgua.2.2
      have hmax := UInt32.lt_iff_toNat_lt.mp hgua.2.2
      refine ⟨?_, ?_, ?_, ?_, ?_⟩
      · simp only [length_append, length_singleton]
        omega
      · omega
      · simp [Party.drains, hgua.1]
      · simp [hgua.1]
      · simp
    · cases hstep
  | startThrows =>
    simp only [partyStep] at hstep
    split at hstep
    next hgua =>
      have hknd : party.countsFirst = false := hclm
      simp only [hknd, Bool.false_eq_true, ↓reduceIte, some.injEq, Prod.mk.injEq] at hstep
      obtain ⟨rfl, rfl⟩ := hstep
      have hmax := UInt32.lt_iff_toNat_lt.mp hgua.2.2
      exact ⟨rfl, .inl le_rfl, .inr hmax, by simp, by simp⟩
    · cases hstep
  | leaveStarting =>
    simp only [partyStep] at hstep
    split at hstep
    next hgua =>
      cases hstep
      refine ⟨rfl, .inl le_rfl, .inl ?_, ?_, ?_⟩
      · by_cases hfut : party.futures = []
        · simp [Party.drains, hfut]
        · simp [Party.drains, hfut, hgua.1]
      · by_cases hfut : party.futures = [] <;> simp [hfut]
      · by_cases hfut : party.futures = []
        · by_cases hwrk : party.work = 0 <;> simp [hfut, hwrk]
        · simp [hfut]
    · cases hstep
  | finish i ok =>
    simp only [partyStep] at hstep
    split at hstep
    · cases hstep
      refine ⟨?_, .inl le_rfl, .inl ?_, ?_, ?_⟩
      · rw [length_set]
      · simp [Party.drains]
      · intro hphase
        simp [hsan.finished hphase]
      · intro hphase hnil
        apply hsan.scanning hphase
        simpa using hnil
    · cases hstep
  | collect i =>
    simp only [partyStep] at hstep
    split at hstep
    next hphase =>
      split at hstep
      next hrea =>
        cases hstep
        have hi := (List.getElem?_eq_some_iff.mp hrea).1
        have hpos : 0 < counter.toNat := by omega
        have hcou := toNat_sub_one hpos
        refine ⟨?_, .inl (by omega), .inl ?_, by simp, by simp⟩
        · rw [length_eraseIdx_of_lt hi]
          omega
        · simp [Party.drains, hphase]
      · cases hstep
        exact ⟨rfl, .inl le_rfl, .inl (by simp [Party.drains, hphase]), by simp, by simp⟩
      · cases hstep
    · cases hstep
  | reset => exact absurd rfl hreset
  | drain =>
    have hnil : party.futures = [] := hclm
    simp only [partyStep] at hstep
    split at hstep
    · simp only [hnil, getLast?_nil, some.injEq, Prod.mk.injEq] at hstep
      obtain ⟨rfl, rfl⟩ := hstep
      refine ⟨by rw [hnil], .inl le_rfl, .inl ?_, ?_, by simp⟩
      · simp [Party.drains, hnil]
      · intro _
        rfl
    · cases hstep

/-! The invariant of the whole pool. -/

def Pool.drains (pool : Pool) : Nat := (pool.parties.map Party.drains).sum

/-- The counter is the number of futures held. Readers in their catch block hold
fewer than the maximum, so they alone never block the others. -/
structure Invariant (maxThreads : UInt32) (pool : Pool) : Prop where
  counter_eq : pool.counter.toNat = pool.held
  counter_le : pool.counter.toNat ≤ maxThreads.toNat
  drains_lt : pool.drains < maxThreads.toNat
  sane : ∀ (p : Nat) (party : Party), pool.parties[p]? = some party → party.Sane

theorem step_act (hstep : step maxThreads pool (.act p action) = some pool') :
    ∃ party counter' party', pool.parties[p]? = some party ∧
      partyStep maxThreads pool.counter party action = some (counter', party') ∧
      pool' = ⟨counter', pool.parties.set p party'⟩ := by
  obtain ⟨party, hpar, hrest⟩ := bind_eq_some_iff.mp hstep
  obtain ⟨⟨counter', party'⟩, hmov, hresult⟩ := bind_eq_some_iff.mp hrest
  exact ⟨party, counter', party', hpar, hmov, (some.inj hresult).symm⟩

theorem drains_le (party : Party) : party.drains ≤ party.futures.length := by
  unfold Party.drains
  split
  · exact le_rfl
  · exact Nat.zero_le _

theorem Pool.drains_le_held (pool : Pool) : pool.drains ≤ pool.held := by
  unfold Pool.drains Pool.held
  induction pool.parties with
  | nil => exact le_rfl
  | cons party parties ih =>
    exact Nat.add_le_add (drains_le party) ih

theorem sane_set (hsan : ∀ (q : Nat) (party : Party), pool.parties[q]? = some party → party.Sane)
    (hnew : party'.Sane) (q : Nat) (party : Party)
    (hpar : (pool.parties.set p party')[q]? = some party) : party.Sane := by
  cases getElem?_set_cases hpar with
  | inl hself => exact hself.2 ▸ hnew
  | inr hother => exact hsan q party hother.2

theorem Invariant.moves (hinv : Invariant maxThreads pool) (hpar : pool.parties[p]? = some party)
    (hmov : Moves maxThreads pool.counter party counter' party') :
    Invariant maxThreads ⟨counter', pool.parties.set p party'⟩ := by
  have hheld := sum_map_set (fun party => party.futures.length) hpar party'
  have hdra := sum_map_set Party.drains hpar party'
  have hcou := hinv.counter_eq
  have hle := hinv.counter_le
  have hlt := hinv.drains_lt
  have hbal := hmov.balance
  unfold Pool.held at hcou
  unfold Pool.drains at hlt
  have hnew : counter'.toNat =
      ((pool.parties.set p party').map fun party => party.futures.length).sum := by
    omega
  refine ⟨hnew, ?_, ?_, sane_set hinv.sane hmov.sane⟩
  · cases hmov.bound with
    | inl hlower => exact hlower.trans hle
    | inr hupper => exact hupper
  · cases hmov.drains with
    | inl hsame =>
      unfold Pool.drains
      dsimp only
      omega
    | inr hbel =>
      -- whatever starts to drain was counted below the maximum
      have hafter := Pool.drains_le_held ⟨counter', pool.parties.set p party'⟩
      exact lt_of_le_of_lt (hafter.trans hnew.ge) hbel

theorem Invariant.fails (hinv : Invariant maxThreads pool) (hmax : 0 < maxThreads)
    (hote : ∀ (q : Nat) (other : Party), q ≠ p → pool.parties[q]? = some other → other.futures = []) :
    Invariant maxThreads ⟨0, pool.parties.set p { party with futures := [], phase := .finished }⟩ := by
  have hpos := UInt32.lt_iff_toNat_lt.mp hmax
  have hheld : Pool.held
      ⟨0, pool.parties.set p { party with futures := [], phase := .finished }⟩ = 0 := by
    unfold Pool.held
    rw [sum_eq_zero_iff]
    intro n hn
    obtain ⟨other, hmem, rfl⟩ := mem_map.mp hn
    obtain ⟨q, hq⟩ := mem_iff_getElem?.mp hmem
    cases getElem?_set_cases hq with
    | inl hself => rw [hself.2, length_nil]
    | inr hother => rw [hote q other hother.1 hother.2, length_nil]
  have hdra := Pool.drains_le_held
    ⟨0, pool.parties.set p { party with futures := [], phase := .finished }⟩
  refine ⟨hheld.symm, Nat.zero_le _, ?_, sane_set hinv.sane ⟨fun _ => rfl, by simp⟩⟩
  exact lt_of_le_of_lt (hdra.trans hheld.le) hpos

theorem held_le_counter (hinv : Invariant maxThreads pool)
    (hpar : pool.parties[p]? = some party) : party.futures.length ≤ pool.counter.toNat := by
  rw [hinv.counter_eq]
  exact measure_le_sum (fun party => party.futures.length) hpar

theorem partyStep_reset (hstep : partyStep maxThreads counter party .reset = some (counter', party')) :
    counter' = 0 ∧ party' = { party with futures := [], phase := .finished } := by
  simp only [partyStep] at hstep
  split at hstep
  · cases hstep
    exact ⟨rfl, rfl⟩
  · cases hstep

theorem invariant_step (hmax : 0 < maxThreads) (pool : Pool) (event : Event) (pool' : Pool)
    (hinv : Invariant maxThreads pool) (hsou : Sound pool event)
    (hstep : step maxThreads pool event = some pool') : Invariant maxThreads pool' := by
  cases event with
  | enter work countsFirst =>
    simp only [step, some.injEq] at hstep
    subst hstep
    refine ⟨?_, hinv.counter_le, ?_, ?_⟩
    · rw [hinv.counter_eq]
      simp [Pool.held]
    · have hlt := hinv.drains_lt
      simpa [Pool.drains, Party.drains] using hlt
    · intro q party hpar
      by_cases hq : q < pool.parties.length
      · rw [getElem?_append_left hq] at hpar
        exact hinv.sane q party hpar
      · rw [getElem?_append_right (by omega), getElem?_singleton] at hpar
        split at hpar
        · cases hpar
          exact ⟨by simp, by simp⟩
        · cases hpar
  | act p action =>
    obtain ⟨party, counter', party', hpar, hmov, rfl⟩ := step_act hstep
    have hson := hsou party hpar
    by_cases hreset : action = .reset
    · subst hreset
      obtain ⟨rfl, rfl⟩ := partyStep_reset hmov
      apply hinv.fails hmax
      intro q other hq hother
      exact hson q (List.getElem?_eq_some_iff.mp hother).1 hq other hother
    · have hclm : Calm party action := by
        cases action with
        | startThrows => exact hson
        | drain => exact hson
        | _ => trivial
      exact hinv.moves hpar (partyStep_moves (held_le_counter hinv hpar)
        (hinv.sane p party hpar) hclm hreset hmov)

theorem sound_of_counter_eq (hinv : Invariant maxThreads pool)
    (hstep : step maxThreads pool event = some pool')
    (hexa : pool'.counter.toNat = pool'.held) : Sound pool event := by
  cases event with
  | enter work countsFirst => trivial
  | act p action =>
    obtain ⟨party, counter', party', hpar, hmov, rfl⟩ := step_act hstep
    have hcou := hinv.counter_eq
    have hsum := sum_map_set (fun party => party.futures.length) hpar party'
    unfold Pool.held at hexa hcou
    dsimp only at hexa
    intro other hother
    obtain rfl : party = other := by
      rw [hpar] at hother
      exact some.inj hother
    cases action with
    | startThrows =>
      simp only [partyStep] at hmov
      split at hmov
      next hgua =>
        have hadd := toNat_add_one hgua.2.2
        by_contra hfirst
        have hknd : party.countsFirst = true := by simpa [SoundFor] using hfirst
        simp only [hknd, ↓reduceIte, some.injEq, Prod.mk.injEq] at hmov
        obtain ⟨rfl, rfl⟩ := hmov
        dsimp only at hsum
        omega
      · cases hmov
    | drain =>
      simp only [partyStep] at hmov
      split at hmov
      · split at hmov
        next hnone =>
          exact getLast?_eq_none_iff.mp hnone
        · cases hmov
          rw [length_dropLast] at hsum
          exact eq_nil_of_length_eq_zero (by omega)
        · cases hmov
          rw [length_nil] at hsum
          exact eq_nil_of_length_eq_zero (by omega)
        · cases hmov
      · cases hmov
    | reset =>
      intro q _ hq other hother
      obtain ⟨rfl, rfl⟩ := partyStep_reset hmov
      have hmem : (pool.parties.set p { party with futures := [], phase := .finished })[q]? =
          some other := by
        rw [getElem?_set_ne (Ne.symm hq)]
        exact hother
      have hle := measure_le_sum (fun party => party.futures.length) hmem
      rw [UInt32.toNat_zero] at hexa
      exact eq_nil_of_length_eq_zero (by omega)
    | _ => trivial

/-! A reader with work left is granted a thread. -/

theorem start_isSome (hpar : pool.parties[p]? = some party)
    (hphase : party.phase = .starting) (hwrk : 0 < party.work) (hcou : pool.counter < maxThreads) :
    (step maxThreads pool (.act p .start)).isSome := by
  simp [step, partyStep, hpar, hphase, hwrk, hcou]

theorem step_act_eq (hpar : pool.parties[p]? = some party)
    (hmov : partyStep maxThreads pool.counter party action = some (counter', party')) :
    step maxThreads pool (.act p action) = some ⟨counter', pool.parties.set p party'⟩ := by
  simp [step, hpar, hmov]

/-- The reader `q` can finish and collect futures until there is room for a thread; it is then back in
the loop that starts threads. -/
def Releases (maxThreads : UInt32) (pool : Pool) (q work : Nat) (calm : Prop) : Prop :=
  ∃ events pool', (∀ e ∈ events, Event.Completes e) ∧
    run (step maxThreads) pool events = some pool' ∧ pool'.counter < maxThreads ∧
    (∀ p ≠ q, pool'.parties[p]? = pool.parties[p]?) ∧
    (calm → ∃ party', pool'.parties[q]? = some party' ∧ party'.phase = .starting ∧ party'.work = work)

theorem Releases.step (hrel : Releases maxThreads ⟨counter', pool.parties.set q party'⟩ q work calm)
    (action : Action) (hpar : pool.parties[q]? = some party) (hcom : (Event.act q action).Completes)
    (hmov : partyStep maxThreads pool.counter party action = some (counter', party')) :
    Releases maxThreads pool q work calm := by
  obtain ⟨events, pool', hrest, hrun, hcou, hote, hself⟩ := hrel
  refine ⟨.act q action :: events, pool', forall_mem_cons.mpr ⟨hcom, hrest⟩, ?_, hcou, ?_, hself⟩
  · rw [run_cons, step_act_eq hpar hmov, bind_some, hrun]
  · intro p hp
    rw [hote p hp, getElem?_set_ne (Ne.symm hp)]

/-- The threads of a reader that clears its list end, and the counter is set to zero. -/
theorem clearing_releases {q : Nat} (hmax : 0 < maxThreads) (hpar : pool.parties[q]? = some party)
    (hphase : party.phase = .clearing) : Releases maxThreads pool q party.work False := by
  induction hcount : party.futures.count .running generalizing pool party with
  | zero =>
    have hgone : Releases maxThreads
        ⟨0, pool.parties.set q { party with futures := [], phase := .finished }⟩ q party.work False :=
      ⟨[], _, by simp, rfl, hmax, fun _ _ => rfl, False.elim⟩
    refine hgone.step .reset hpar trivial ?_
    simp [partyStep, hphase, count_eq_zero.mp hcount]
  | succ count ih =>
    obtain ⟨i, hi⟩ := mem_iff_getElem?.mp (count_pos_iff.mp (by rw [hcount]; omega))
    obtain ⟨hlt, hrunning⟩ := List.getElem?_eq_some_iff.mp hi
    have hlen : q < pool.parties.length := (List.getElem?_eq_some_iff.mp hpar).1
    have hrest : Releases maxThreads
        ⟨pool.counter, pool.parties.set q { party with futures := party.futures.set i .succeeded }⟩ q
        party.work False := by
      refine @ih { party with futures := party.futures.set i .succeeded } _ (getElem?_set_self hlen) hphase ?_
      rw [count_set hlt, hrunning, hcount]
      rfl
    refine hrest.step (.finish i true) hpar trivial ?_
    simp [partyStep, hi]

theorem Releases.of_not (hrel : Releases maxThreads pool q work False) (hcalm : ¬ calm) :
    Releases maxThreads pool q work calm := by
  obtain ⟨events, pool', hcom, hrun, hcou, hote, -⟩ := hrel
  exact ⟨events, pool', hcom, hrun, hcou, hote, fun h => absurd h hcalm⟩

theorem scanning_releases {q : Nat} (hinv : Invariant maxThreads pool)
    (hmax : 0 < maxThreads) (hpar : pool.parties[q]? = some party) (hphase : party.phase = .scanning) :
    Releases maxThreads pool q party.work (.failed ∉ party.futures) := by
  have hlen : q < pool.parties.length := (List.getElem?_eq_some_iff.mp hpar).1
  have hheld := held_le_counter hinv hpar
  have hle := hinv.counter_le
  obtain ⟨future, rest, hfut⟩ := exists_cons_of_ne_nil ((hinv.sane q party hpar).scanning hphase)
  rw [hfut, length_cons] at hheld
  have hsub := toNat_sub_one (show 0 < pool.counter.toNat by omega)
  have hbel : pool.counter - 1 < maxThreads := by
    rw [UInt32.lt_iff_toNat_lt]
    omega
  have hget : ∀ parties : List Party, q < parties.length →
      Releases maxThreads ⟨pool.counter - 1,
        parties.set q { party with futures := rest, phase := .starting }⟩ q party.work
        (.failed ∉ party.futures) := by
    intro parties hlt
    exact ⟨[], _, by simp, rfl, hbel, fun _ _ => rfl, by simp [hlt]⟩
  cases future with
  | running =>
    have hfin : Releases maxThreads
        ⟨pool.counter, pool.parties.set q { party with futures := .succeeded :: rest }⟩ q party.work
        (.failed ∉ party.futures) := by
      refine (hget _ (by simp [hlen])).step (.collect 0) (getElem?_set_self hlen) trivial ?_
      simp [partyStep, hphase]
    refine hfin.step (.finish 0 true) hpar trivial ?_
    simp [partyStep, hfut]
  | succeeded =>
    refine (hget _ hlen).step (.collect 0) hpar trivial ?_
    simp [partyStep, hphase, hfut]
  | failed =>
    have hclear : Releases maxThreads
        ⟨pool.counter, pool.parties.set q { party with phase := .clearing }⟩ q party.work False :=
      @clearing_releases { party with phase := .clearing } _ _ q hmax (getElem?_set_self hlen) rfl
    refine (hclear.of_not (by simp [hfut])).step (.collect 0) hpar trivial ?_
    simp [partyStep, hphase, hfut]

def Party.reads (party : Party) : Nat :=
  if party.phase = .draining then 0 else party.futures.length

theorem held_eq (pool : Pool) : pool.held = pool.drains + (pool.parties.map Party.reads).sum := by
  unfold Pool.held Pool.drains
  induction pool.parties with
  | nil => rfl
  | cons party parties ih =>
    simp only [map_cons, sum_cons, ih]
    unfold Party.drains Party.reads
    split <;> omega

theorem exists_reading (hinv : Invariant maxThreads pool) (hfill : ¬ pool.counter < maxThreads) :
    ∃ (q : Nat) (party : Party), pool.parties[q]? = some party ∧ party.futures ≠ [] ∧
      (party.phase = .clearing ∨ party.phase = .starting ∨ party.phase = .scanning) := by
  rw [UInt32.lt_iff_toNat_lt] at hfill
  have hcou := hinv.counter_eq
  have hdra := hinv.drains_lt
  have hsplit := held_eq pool
  have hrea : 0 < (pool.parties.map Party.reads).sum := by omega
  obtain ⟨q, party, hpar, hpos⟩ := exists_measure_pos Party.reads hrea
  unfold Party.reads at hpos
  split at hpos
  · omega
  next hphase =>
    have hfut : party.futures ≠ [] := length_pos_iff.mp hpos
    refine ⟨q, party, hpar, hfut, ?_⟩
    cases hcase : party.phase with
    | clearing => exact .inl rfl
    | starting => exact .inr (.inl rfl)
    | scanning => exact .inr (.inr rfl)
    | draining => exact absurd hcase hphase
    | finished => exact absurd ((hinv.sane q party hpar).finished hcase) hfut

theorem reading_releases {q : Nat} (hinv : Invariant maxThreads pool) (hmax : 0 < maxThreads)
    (hpar : pool.parties[q]? = some party) (hfut : party.futures ≠ [])
    (hphase : party.phase = .starting ∨ party.phase = .scanning) (hfill : ¬ pool.counter < maxThreads) :
    Releases maxThreads pool q party.work (.failed ∉ party.futures) := by
  cases hphase with
  | inr hsca => exact scanning_releases hinv hmax hpar hsca
  | inl hsta =>
    have hmov : partyStep maxThreads pool.counter party .leaveStarting =
        some (pool.counter, { party with phase := .scanning }) := by
      simp [partyStep, hsta, hfut, hfill]
    have hsou : Sound pool (.act q .leaveStarting) := fun _ _ => trivial
    have hnext := invariant_step hmax pool _ _ hinv hsou (step_act_eq hpar hmov)
    have hlen : q < pool.parties.length := (List.getElem?_eq_some_iff.mp hpar).1
    exact (scanning_releases hnext hmax (getElem?_set_self hlen) rfl).step .leaveStarting hpar trivial hmov

theorem Invariant.grantable (hinv : Invariant maxThreads pool) (hmax : 0 < maxThreads) :
    Grantable maxThreads pool := by
  intro p party hpar hphase hwrk hfld
  cases hphase with
  | inr hsca =>
    obtain ⟨events, pool', hcom, hrun, hcou, -, hself⟩ := scanning_releases hinv hmax hpar hsca
    obtain ⟨party', hpar', hpha', hwork'⟩ := hself hfld
    exact ⟨events, pool', hcom, hrun, start_isSome hpar' hpha' (hwork' ▸ hwrk) hcou⟩
  | inl hsta =>
    by_cases hroom : pool.counter < maxThreads
    · exact ⟨[], pool, by simp, rfl, start_isSome hpar hsta hwrk hroom⟩
    · obtain ⟨q, other, hother, hfut, hclear | hrdn⟩ := exists_reading hinv hroom
      · obtain ⟨events, pool', hcom, hrun, hcou, hote, -⟩ := clearing_releases hmax hother hclear
        have hne : p ≠ q := by
          rintro rfl
          rw [hpar, some.injEq] at hother
          rw [hother, hclear] at hsta
          cases hsta
        exact ⟨events, pool', hcom, hrun, start_isSome ((hote p hne).trans hpar) hsta hwrk hcou⟩
      obtain ⟨events, pool', hcom, hrun, hcou, hote, hself⟩ :=
        reading_releases hinv hmax hother hfut hrdn hroom
      refine ⟨events, pool', hcom, hrun, ?_⟩
      by_cases hsame : p = q
      · subst hsame
        rw [hpar, some.injEq] at hother
        subst hother
        obtain ⟨party', hpar', hpha', hwork'⟩ := hself hfld
        exact start_isSome hpar' hpha' (hwork' ▸ hwrk) hcou
      · exact start_isSome ((hote p hsame).trans hpar) hsta hwrk hcou

theorem invariant_initial (hmax : 0 < maxThreads) : Invariant maxThreads initial := by
  have hpos := UInt32.lt_iff_toNat_lt.mp hmax
  refine ⟨rfl, Nat.zero_le _, hpos, ?_⟩
  intro p party hpar
  simp [initial] at hpar

theorem Invariant.accounted (hinv : Invariant maxThreads pool) (hmax : 0 < maxThreads) :
    Accounted maxThreads pool :=
  ⟨hinv.counter_eq, UInt32.le_iff_toNat_le.mpr hinv.counter_le, hinv.grantable hmax⟩

/-- The accounting is exact in every state of a run if and only if every step of
the run is sound. -/
theorem accounted_throughout_iff_sound (maxThreads : UInt32) (hmax : 0 < maxThreads)
    (events : List Event) : Throughout (step maxThreads) (Accounted maxThreads) initial events ↔
      Guarded (step maxThreads) Sound initial events := by
  apply throughout_iff_guarded (Invariant maxThreads)
  · intro pool hinv
    exact hinv.accounted hmax
  · exact invariant_step hmax
  · intro pool event pool' hinv hstep hacc
    exact sound_of_counter_eq hinv hstep hacc.counter_eq
  · exact invariant_initial hmax

def failingRun : List Event :=
  [.enter 1 true, .enter 1 true, .act 0 .start, .act 1 .start, .act 1 (.finish 0 false),
    .act 1 .leaveStarting, .act 1 (.collect 0), .act 1 .reset]

/-- The failed collection resets the counter although the first reader still holds
a future; when that one is collected the counter wraps. -/
theorem failingRun_not_accounted : run (step 8) initial failingRun =
        some ⟨0, [⟨[.running], 0, .starting, true⟩, ⟨[], 0, .finished, true⟩]⟩ ∧
      run (step 8) initial (failingRun ++
          [.act 0 (.finish 0 true), .act 0 .leaveStarting, .act 0 (.collect 0)]) =
        some ⟨4294967295, [⟨[], 0, .starting, true⟩, ⟨[], 0, .finished, true⟩]⟩ ∧
      ¬ Throughout (step 8) (Accounted 8) initial failingRun := by
  have hrun : run (step 8) initial failingRun =
      some ⟨0, [⟨[.running], 0, .starting, true⟩, ⟨[], 0, .finished, true⟩]⟩ := by decide
  refine ⟨hrun, by decide, ?_⟩
  intro hthru
  have hcou := (hthru.last hrun).counter_eq
  revert hcou
  decide

theorem accounted_throughout_iff_sound_two : (0 : UInt32) < 8 ∧ Throughout (step 8) (Accounted 8) initial
        [.enter 1 true, .enter 1 true, .act 0 .start, .act 0 .leaveStarting,
          .act 0 (.finish 0 true), .act 0 (.collect 0), .act 1 .start, .act 1 .leaveStarting,
          .act 1 (.finish 0 false), .act 1 (.collect 0), .act 1 .reset] :=
  ⟨by decide, (accounted_throughout_iff_sound 8 (by decide) _).mpr (by decide)⟩

end Bes.Dmrpp.ThreadPool
