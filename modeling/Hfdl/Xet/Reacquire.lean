import Hfdl.Transition
import Hfdl.Xet.Reconstruct

/-! One reconstruction shared by any number of fetchers. A rejected URL makes its fetcher ask for a new one: a fetch that is
already under way is waited for, and one that is over is made use of. What runs under the lock is one step; between the
steps the fetchers interleave. -/
namespace Hfdl.Xet

/-- The entry of the same chunks in another reconstruction. -/
def locateEntry (r : Reconstruction) (xorb : XorbHash) (start stop : Nat) : Option FetchRange :=
  (r.fetch xorb).find? fun e => e.chunkStart = start ∧ e.chunkEnd = stop

namespace Reacquiring
open Transition

def maxReacquires : Nat := 2

/-- An entry at work. The generation is the one that the fetcher will name when the URL is rejected; `source`, which the
code does not keep, is the one that the URL came from, and `listed` that of the entries which are left. -/
structure Fetching where
  xorb : XorbHash
  entry : FetchRange
  gen : Nat
  rest : List FetchRange
  listed : Nat
  source : Nat

/-- Where a goroutine is. Beside a call of `reacquire` stands the generation in force when it was made. -/
inductive Phase where
  | idle
  | preparing
  | prepareWaiting (channel : Nat)
  | prepareLeading
  | chosen (xorb : XorbHash) (entries : List FetchRange) (listed : Nat)
  | requesting (f : Fetching)
  | rejected (f : Fetching)
  | reacquiring (f : Fetching) (called : Nat)
  | waiting (f : Fetching) (called channel : Nat)
  | leading (f : Fetching)
  | reacquired (f : Fetching)

/-- A unit of the budget: the source of the rejected URL, and the generation when `reacquire` was called. -/
structure Spend where
  source : Nat
  called : Nat
deriving DecidableEq

/-- The fields of a source that its mutex guards, the channels made so far and what the budget went to. -/
structure State where
  recon : Option Reconstruction
  gen : Nat
  reacquires : Nat
  fetchWait : Option Nat
  channels : Nat
  phase : Nat → Phase
  spends : List Spend

def init : State := ⟨none, 0, 0, none, 0, fun _ => .idle, []⟩

/-- What a signed range answers. -/
inductive Response where
  | served
  | forbidden
  | failed

inductive Event where
  | prepare (i : Nat)
  | choose (i : Nat) (t : ReconTerm)
  | hit (i : Nat)
  | readGen (i : Nat)
  | respond (i : Nat) (r : Response)
  | call (i : Nat)
  | check (i : Nat)
  | wake (i : Nat)
  | cancel (i : Nat)
  | publish (i : Nat) (fresh : Option Reconstruction)
  | relocate (i : Nat)

def State.put (s : State) (i : Nat) (p : Phase) : State := { s with phase := Function.update s.phase i p }

/-- A fetch starts: its channel is what the others wait for. -/
def State.lead (s : State) (i : Nat) (p : Phase) : State :=
  { s with fetchWait := some s.channels, channels := s.channels + 1, phase := Function.update s.phase i p }

def afterEntry (xorb : XorbHash) (rest : List FetchRange) (listed : Nat) : Phase :=
  match rest with
  | [] => .idle
  | e :: es => .chosen xorb (e :: es) listed

/-- One turn of the loops of `Prepare` and `reacquire`, under the lock. -/
def check (s : State) (i : Nat) : Option State :=
  match s.phase i with
  | .preparing =>
    if s.recon.isSome then some (s.put i .idle)
    else
      match s.fetchWait with
      | some channel => some (s.put i (.prepareWaiting channel))
      | none => some (s.lead i .prepareLeading)
  | .reacquiring f called =>
    if s.gen > f.gen then some (s.put i (.reacquired f))
    else
      match s.fetchWait with
      | some channel => some (s.put i (.waiting f called channel))
      | none =>
        if s.reacquires ≥ maxReacquires then some (s.put i .idle)
        else some { s.lead i (.leading f) with reacquires := s.reacquires + 1, spends := ⟨f.source, called⟩ :: s.spends }
  | _ => none

/-- The end of a fetch, under the lock. `Prepare` does not replace a reconstruction. -/
def publish (s : State) (i : Nat) (fresh : Option Reconstruction) : Option State :=
  match s.phase i with
  | .prepareLeading =>
    if fresh.isSome ∧ s.recon.isNone then some { s.put i .idle with fetchWait := none, recon := fresh, gen := s.gen + 1 }
    else some { s.put i .idle with fetchWait := none }
  | .leading f =>
    match fresh with
    | none => some { s.put i .idle with fetchWait := none }
    | some r => some { s.put i (.reacquired f) with fetchWait := none, recon := some r, gen := s.gen + 1 }
  | _ => none

/-- Any failure ends the stream that the goroutine writes, which leaves it idle. -/
def next (s : State) : Event → Option State
  | .prepare i =>
    match s.phase i with
    | .idle => some (s.put i .preparing)
    | _ => none
  | .choose i t =>
    match s.phase i, s.recon with
    | .idle, some r =>
      match coverRanges (r.fetch t.xorb) t.chunkStart t.chunkEnd with
      | none => some s
      | some entries => some (s.put i (.chosen t.xorb entries s.gen))
    | _, _ => none
  | .hit i =>
    match s.phase i with
    | .chosen xorb (_ :: rest) listed => some (s.put i (afterEntry xorb rest listed))
    | _ => none
  | .readGen i =>
    match s.phase i with
    | .chosen xorb (e :: rest) listed => some (s.put i (.requesting ⟨xorb, e, s.gen, rest, listed, listed⟩))
    | _ => none
  | .respond i r =>
    match s.phase i with
    | .requesting f =>
      match r with
      | .served => some (s.put i (afterEntry f.xorb f.rest f.listed))
      | .forbidden => some (s.put i (.rejected f))
      | .failed => some (s.put i .idle)
    | _ => none
  | .call i =>
    match s.phase i with
    | .rejected f => some (s.put i (.reacquiring f s.gen))
    | _ => none
  | .check i => check s i
  | .wake i =>
    match s.phase i with
    | .prepareWaiting channel => if s.fetchWait = some channel then none else some (s.put i .preparing)
    | .waiting f called channel => if s.fetchWait = some channel then none else some (s.put i (.reacquiring f called))
    | _ => none
  | .cancel i =>
    match s.phase i with
    | .prepareWaiting _ => some (s.put i .idle)
    | .waiting _ _ _ => some (s.put i .idle)
    | _ => none
  | .publish i fresh => publish s i fresh
  | .relocate i =>
    match s.phase i, s.recon with
    | .reacquired f, some r =>
      match locateEntry r f.xorb f.entry.chunkStart f.entry.chunkEnd with
      | none => some (s.put i .idle)
      | some e => some (s.put i (.requesting { f with entry := e, gen := s.gen, source := s.gen }))
    | _, _ => none

def Phase.listed? : Phase → Option Nat
  | .chosen _ _ listed => some listed
  | _ => none

/-- No reconstruction was published between the choice of an entry and the reading of the generation for it. -/
def Current (s : State) : Event → Prop
  | .readGen i => ∀ listed ∈ (s.phase i).listed?, listed = s.gen
  | _ => True

instance (s : State) (e : Event) : Decidable (Current s e) := by
  unfold Current
  split <;> infer_instance

def Phase.leads : Phase → Bool
  | .prepareLeading => true
  | .leading _ => true
  | _ => false

def Phase.fetching? : Phase → Option Fetching
  | .requesting f => some f
  | .rejected f => some f
  | .reacquiring f _ => some f
  | .waiting f _ _ => some f
  | .leading f => some f
  | .reacquired f => some f
  | _ => none

def Phase.called? : Phase → Option Nat
  | .reacquiring _ called => some called
  | .waiting _ called _ => some called
  | _ => none

theorem afterEntry_quiet : (afterEntry xorb rest listed).leads = false ∧ (afterEntry xorb rest listed).called? = none ∧
    (afterEntry xorb rest listed).fetching? = none := by
  cases rest <;> exact ⟨rfl, rfl, rfl⟩

/-- What a goroutine that neither starts nor ends a fetch takes along into its next phase. -/
structure Follows (s : State) (e : Event) (old new : Phase) : Prop where
  stands : new.leads = false
  calls : ∀ c, new.called? = some c → c = s.gen ∨ old.called? = some c
  binds : ∀ f, new.fetching? = some f → (Current s e → f.source = f.gen) ∨ old.fetching? = some f

/-- What a step can do. -/
inductive Effect (s : State) (e : Event) : State → Prop
  | stay : Effect s e s
  | walk (here : s.phase i = old) (follows : Follows s e old new) : Effect s e (s.put i new)
  | prepare (here : s.phase i = .preparing) (free : s.fetchWait = none) : Effect s e (s.lead i .prepareLeading)
  | spend (here : s.phase i = .reacquiring f called) (free : s.fetchWait = none) (current : s.gen ≤ f.gen)
      (left : s.reacquires < maxReacquires) :
      Effect s e { s.lead i (.leading f) with reacquires := s.reacquires + 1, spends := ⟨f.source, called⟩ :: s.spends }
  | land (here : s.phase i = old) (flew : old.leads = true) (stands : new.leads = false) (calls : new.called? = none)
      (binds : ∀ f, new.fetching? = some f → old.fetching? = some f) (later : s.gen ≤ gen') :
      Effect s e { s.put i new with fetchWait := none, recon := recon', gen := gen' }

section
variable {s s' : State} {e : Event} {i : Nat} {old : Phase}

theorem Follows.quiet (stands : new.leads = false) (calls : new.called? = none) (binds : new.fetching? = none) :
    Follows s e old new := by
  constructor
  · exact stands
  · intro c called
    cases calls.symm.trans called
  · intro f bound
    cases binds.symm.trans bound

theorem Follows.same (stands : new.leads = false) (calls : ∀ c, new.called? = some c → old.called? = some c)
    (binds : new.fetching? = old.fetching?) : Follows s e old new := by
  constructor
  · exact stands
  · intro c called
    exact .inr (calls c called)
  · intro f bound
    exact .inr (binds ▸ bound)

theorem effect_check (stepped : check s i = some s') : Effect s e s' := by
  rw [check] at stepped
  repeat' split at stepped
  all_goals cases stepped
  · exact .walk ‹_› (.quiet rfl rfl rfl)
  · exact .walk ‹_› (.quiet rfl rfl rfl)
  · exact .prepare ‹_› ‹_›
  · have here := ‹s.phase i = _›
    exact .walk here (.same rfl (fun _ never => by cases never) rfl)
  · have here := ‹s.phase i = _›
    exact .walk here (.same rfl (fun _ same => same) rfl)
  · exact .walk ‹_› (.quiet rfl rfl rfl)
  · exact .spend ‹_› ‹_› (by omega) (by omega)

theorem effect_publish (stepped : publish s i fresh = some s') : Effect s e s' := by
  rw [publish] at stepped
  repeat' split at stepped
  all_goals cases stepped
  · exact .land ‹_› rfl rfl rfl (fun _ never => by cases never) (Nat.le_succ _)
  · exact .land ‹_› rfl rfl rfl (fun _ never => by cases never) (Nat.le_refl _)
  · exact .land ‹_› rfl rfl rfl (fun _ never => by cases never) (Nat.le_refl _)
  · have here := ‹s.phase i = _›
    exact .land here rfl rfl rfl (fun _ same => same) (Nat.le_succ _)

theorem effect_readGen (stepped : next s (.readGen i) = some s') : Effect s (.readGen i) s' := by
  simp only [next] at stepped
  split at stepped
  · rename_i here
    cases stepped
    refine .walk here ⟨rfl, (fun _ never => by cases never), ?_⟩
    intro f bound
    cases bound
    apply Or.inl
    intro current
    -- the URL is that of the list, and the list is current
    rw [Current, here] at current
    exact current _ rfl
  · cases stepped

theorem effect_relocate (stepped : next s (.relocate i) = some s') : Effect s (.relocate i) s' := by
  simp only [next] at stepped
  repeat' split at stepped
  all_goals cases stepped
  · exact .walk ‹_› (.quiet rfl rfl rfl)
  · refine .walk ‹_› ⟨rfl, (fun _ never => by cases never), ?_⟩
    intro f bound
    cases bound
    exact .inl fun _ => rfl

theorem effect_respond (stepped : next s (.respond i r) = some s') : Effect s (.respond i r) s' := by
  simp only [next] at stepped
  repeat' split at stepped
  all_goals cases stepped
  · exact .walk ‹_› (.quiet afterEntry_quiet.1 afterEntry_quiet.2.1 afterEntry_quiet.2.2)
  · have here := ‹s.phase i = _›
    exact .walk here (.same rfl (fun _ never => by cases never) rfl)
  · exact .walk ‹_› (.quiet rfl rfl rfl)

theorem effect_wake (stepped : next s (.wake i) = some s') : Effect s (.wake i) s' := by
  simp only [next] at stepped
  repeat' split at stepped
  all_goals cases stepped
  · exact .walk ‹_› (.quiet rfl rfl rfl)
  · have here := ‹s.phase i = _›
    exact .walk here (.same rfl (fun _ same => same) rfl)

theorem effect_next (stepped : next s e = some s') : Effect s e s' := by
  cases e with
  | readGen i => exact effect_readGen stepped
  | respond i r => exact effect_respond stepped
  | check i => exact effect_check stepped
  | wake i => exact effect_wake stepped
  | publish i fresh => exact effect_publish stepped
  | relocate i => exact effect_relocate stepped
  | prepare i =>
    simp only [next] at stepped
    split at stepped <;> cases stepped
    exact .walk ‹_› (.quiet rfl rfl rfl)
  | choose i t =>
    simp only [next] at stepped
    repeat' split at stepped
    all_goals cases stepped
    · exact .stay
    · exact .walk ‹_› (.quiet rfl rfl rfl)
  | hit i =>
    simp only [next] at stepped
    split at stepped <;> cases stepped
    exact .walk ‹_› (.quiet afterEntry_quiet.1 afterEntry_quiet.2.1 afterEntry_quiet.2.2)
  | call i =>
    simp only [next] at stepped
    split at stepped <;> cases stepped
    have here := ‹s.phase i = _›
    refine .walk here ⟨rfl, ?_, fun _ same => .inr same⟩
    intro c called
    cases called
    exact .inl rfl
  | cancel i =>
    simp only [next] at stepped
    split at stepped <;> cases stepped
    · exact .walk ‹_› (.quiet rfl rfl rfl)
    · exact .walk ‹_› (.quiet rfl rfl rfl)

theorem gen_next (stepped : next s e = some s') : s.gen ≤ s'.gen := by
  cases effect_next stepped with
  | stay => exact Nat.le_refl _
  | walk => exact Nat.le_refl _
  | prepare => exact Nat.le_refl _
  | spend => exact Nat.le_refl _
  | land _ _ _ _ _ later => exact later

theorem gen_run (ran : run next s es = some s') : s.gen ≤ s'.gen :=
  invariant (I := fun t => s.gen ≤ t.gen) (fun held stepped => Nat.le_trans held (gen_next stepped)) (Nat.le_refl _) ran

/-- One goroutine at most fetches, and its channel is there while it does. -/
structure Flight (phase : Nat → Phase) (fetchWait : Option Nat) : Prop where
  announced : ∀ i, (phase i).leads = true → fetchWait ≠ none
  single : ∀ i j, (phase i).leads = true → (phase j).leads = true → i = j

theorem leads_update {phase : Nat → Phase} (stands : new.leads = false) (leads : (Function.update phase i new j).leads = true) :
    j ≠ i ∧ (phase j).leads = true := by
  by_cases same : j = i
  · rw [same, Function.update_self, stands] at leads
    cases leads
  · rw [Function.update_of_ne same] at leads
    exact ⟨same, leads⟩

theorem Flight.walk {phase : Nat → Phase} (flight : Flight phase fetchWait) (stands : new.leads = false) :
    Flight (Function.update phase i new) fetchWait := by
  constructor
  · intro j leads
    exact flight.announced j (leads_update stands leads).2
  · intro j k leads leads'
    exact flight.single j k (leads_update stands leads).2 (leads_update stands leads').2

theorem Flight.lead {phase : Nat → Phase} (flight : Flight phase none) : Flight (Function.update phase i new) (some channel) := by
  have alone (j : Nat) (leads : (Function.update phase i new j).leads = true) : j = i := by
    by_contra other
    rw [Function.update_of_ne other] at leads
    exact flight.announced j leads rfl
  constructor
  · intro j _
    exact Option.some_ne_none channel
  · intro j k leads leads'
    exact (alone j leads).trans (alone k leads').symm

theorem Flight.land {phase : Nat → Phase} (flight : Flight phase fetchWait) (flew : (phase i).leads = true)
    (stands : new.leads = false) : Flight (Function.update phase i new) none := by
  have grounded (j : Nat) : ¬ (Function.update phase i new j).leads = true := by
    intro leads
    obtain ⟨other, leads⟩ := leads_update stands leads
    exact other (flight.single j i leads flew)
  constructor
  · intro j leads
    exact absurd leads (grounded j)
  · intro j k leads _
    exact absurd leads (grounded j)

theorem flight_next (flight : Flight s.phase s.fetchWait) (stepped : next s e = some s') : Flight s'.phase s'.fetchWait := by
  cases effect_next stepped with
  | stay => exact flight
  | walk _ follows => exact flight.walk follows.stands
  | prepare _ free => exact (free ▸ flight).lead
  | spend _ free _ _ => exact (free ▸ flight).lead
  | land here flew stands _ _ _ => exact flight.land (here ▸ flew) stands

/-- Every unit of the budget is accounted for, and the budget is kept. -/
def Budgeted (s : State) : Prop := s.spends.length = s.reacquires ∧ s.reacquires ≤ maxReacquires

theorem budgeted_next (budgeted : Budgeted s) (stepped : next s e = some s') : Budgeted s' := by
  cases effect_next stepped with
  | stay => exact budgeted
  | walk => exact budgeted
  | prepare => exact budgeted
  | spend _ _ _ left => exact ⟨congrArg Nat.succ budgeted.1, left⟩
  | land => exact budgeted

structure Honest (gen : Nat) (p : Phase) : Prop where
  calls : ∀ c, p.called? = some c → c ≤ gen
  binds : ∀ f, p.fetching? = some f → f.source = f.gen

/-- Every goroutine names the right generation, and none has spent for a URL that was out of date when it called. -/
structure Fair (s : State) : Prop where
  honest : ∀ i, Honest s.gen (s.phase i)
  spends : ∀ x ∈ s.spends, x.called ≤ x.source

theorem Honest.quiet (calls : p.called? = none) (binds : p.fetching? = none) : Honest gen p := by
  constructor
  · intro c called
    cases calls.symm.trans called
  · intro f bound
    cases binds.symm.trans bound

theorem Honest.later (honest : Honest gen p) (later : gen ≤ gen') : Honest gen' p :=
  ⟨fun c called => Nat.le_trans (honest.calls c called) later, honest.binds⟩

theorem honest_update {phase : Nat → Phase} (honest : ∀ i, Honest gen (phase i)) (here : Honest gen new) (j : Nat) :
    Honest gen (Function.update phase i new j) := by
  by_cases same : j = i
  · rw [same, Function.update_self]
    exact here
  · rw [Function.update_of_ne same]
    exact honest j

theorem Honest.follows (honest : Honest s.gen old) (current : Current s e) (follows : Follows s e old new) :
    Honest s.gen new := by
  constructor
  · intro c called
    rcases follows.calls c called with rfl | called
    · exact Nat.le_refl _
    · exact honest.calls c called
  · intro f bound
    rcases follows.binds f bound with right | bound
    · exact right current
    · exact honest.binds f bound

theorem fair_next (fair : Fair s) (current : Current s e) (stepped : next s e = some s') : Fair s' := by
  cases effect_next stepped with
  | stay => exact fair
  | walk here follows =>
    constructor
    · exact honest_update fair.honest ((here ▸ fair.honest _).follows current follows)
    · exact fair.spends
  | prepare here _ =>
    constructor
    · exact honest_update fair.honest (.quiet rfl rfl)
    · exact fair.spends
  | @spend i f called here _ named _ =>
    have honest : Honest s.gen (.reacquiring f called) := here ▸ fair.honest i
    have source_eq := honest.binds f rfl
    constructor
    · exact honest_update fair.honest ⟨(fun _ never => by cases never), honest.binds⟩
    · intro x member
      cases member with
      | head =>
        -- the generation was not past the source when the budget was spent, so neither when the call was made
        calc called ≤ s.gen := honest.calls called rfl
          _ ≤ f.gen := named
          _ = f.source := source_eq.symm
      | tail _ earlier => exact fair.spends x earlier
  | @land i old gen' new _ here _ _ quiet binds later =>
    have honest : Honest gen' new := by
      constructor
      · intro c called
        cases quiet.symm.trans called
      · intro f bound
        exact (here ▸ fair.honest i).binds f (binds f bound)
    constructor
    · exact honest_update (fun j => (fair.honest j).later later) honest
    · exact fair.spends

/-- One fetch at most is under way, the budget is kept and the generation never falls; and if each generation is read before
the list of entries is replaced, nobody spends for a URL that was out of date when they asked. -/
theorem reacquire_shared (ran : run next init es = some s) :
    (∀ i j, (s.phase i).leads = true → (s.phase j).leads = true → i = j) ∧
      s.spends.length = s.reacquires ∧ s.reacquires ≤ maxReacquires ∧
      (∀ es' s', run next s es' = some s' → s.gen ≤ s'.gen) ∧
      (Meets next Current init es → ∀ x ∈ s.spends, x.called ≤ x.source) := by
  have flight : Flight s.phase s.fetchWait :=
    invariant (I := fun t => Flight t.phase t.fetchWait) flight_next
      ⟨fun _ never => (by cases never), fun _ _ never => (by cases never)⟩ ran
  obtain ⟨counted, budget⟩ : Budgeted s := invariant budgeted_next ⟨rfl, Nat.zero_le _⟩ ran
  refine ⟨flight.single, counted, budget, fun _ _ later => gen_run later, ?_⟩
  intro meets
  have fair : Fair s := invariant_meeting fair_next
    ⟨fun _ => .quiet rfl rfl, fun _ never => (by cases never)⟩ ran meets
  exact fair.spends

end

def oneTerm : ReconTerm := ⟨"x", 1, 0, 1, 0, 1⟩

def signedWith (url : String) : Reconstruction := ⟨2, 0, [oneTerm], fun _ => [⟨url, 0, 1, 0, 9⟩]⟩

/-- Both choose from the first reconstruction, and the first of them replaces it. -/
def firstReplaces : List Event :=
  [.prepare 0, .check 0, .publish 0 (some (signedWith "old")), .choose 0 oneTerm, .choose 1 oneTerm,
    .readGen 0, .respond 0 .forbidden, .call 0, .check 0, .publish 0 (some (signedWith "new"))]

/-- The second names the new generation for its old URL, and spends the rest of the budget. -/
theorem stale_url_spends :
    ∃ s, run next init (firstReplaces ++ [.readGen 1, .respond 1 .forbidden, .call 1, .check 1]) = some s ∧
      ⟨1, 2⟩ ∈ s.spends ∧ s.reacquires = maxReacquires :=
  ⟨_, rfl, .head _, rfl⟩

/-- Both name the generation of their URLs; the second waits for the fetch of the first. -/
def bothRejected : List Event :=
  [.prepare 0, .check 0, .publish 0 (some (signedWith "old")), .choose 0 oneTerm, .choose 1 oneTerm, .readGen 0, .readGen 1,
    .respond 0 .forbidden, .respond 1 .forbidden, .call 0, .check 0, .call 1, .check 1, .publish 0 (some (signedWith "new")),
    .wake 1, .check 1, .relocate 1, .respond 1 .served]

theorem reacquire_shared_once :
    ∃ s, run next init bothRejected = some s ∧ s.spends = [⟨1, 1⟩] ∧ s.gen = 2 ∧ s.reacquires ≤ maxReacquires ∧
      ∀ x ∈ s.spends, x.called ≤ x.source := by
  have ran : ∃ s, run next init bothRejected = some s ∧ s.spends = [⟨1, 1⟩] ∧ s.gen = 2 := ⟨_, rfl, rfl, rfl⟩
  obtain ⟨s, ran, spent, replaced⟩ := ran
  obtain ⟨-, -, budget, -, fair⟩ := reacquire_shared ran
  exact ⟨s, ran, spent, replaced, budget, fair (by decide)⟩

end Reacquiring
end Hfdl.Xet
