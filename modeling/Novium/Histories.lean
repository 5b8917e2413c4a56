import Novium.Coherence

namespace Novium
open Storage Effects StateTransition SmallStep Relation

-- A history kept beside the machine: what is noted of each instruction, from the state it is executed in.
structure History (σ : Type) where
  zero : σ
  note : Host → Instruction → Machine → σ → σ

namespace History
variable {σ : Type} (H : History σ) (h : Host)

def step (m : Machine) (t : σ) : σ :=
  if m.regs.halt then t
  else match fetch (saveBefore m.deliverInterrupt) with
    | .ok i pre => H.note h i pre t
    | _ => t

def runNext (t : σ) : RunConfig → σ
  | .loop m => if m.live then H.step h m t else t
  | _ => t

def fastNext (t : σ) : FastConfig → σ
  | .loop e => if e.core.live && e.core.verbose then H.step h e.core t else t
  | .block e blk i => match blk.ops[i]? with
    | some ins => if e.core.live then H.note h ins e.core.advancePc t else t
    | none => t
  | _ => t

end History

-- The instruction about to be executed is of a kind.
def Machine.Next (kind : Instruction → Machine → Prop) (m : Machine) : Prop :=
  m.regs.halt = false ∧ ∃ i pre, fetch (saveBefore m.deliverInterrupt) = .ok i pre ∧ kind i pre

def RunConfig.Next (kind : Instruction → Machine → Prop) : RunConfig → Prop
  | .loop m => m.live = true ∧ m.Next kind
  | _ => False

def FastConfig.Next (kind : Instruction → Machine → Prop) : FastConfig → Prop
  | .loop e => e.core.live = true ∧ e.core.verbose = true ∧ e.core.Next kind
  | .block e blk i => ∃ ins, blk.ops[i]? = some ins ∧ e.core.live = true ∧ kind ins e.core.advancePc
  | _ => False

namespace History
variable {σ α : Type}

-- The host's calls with the history beside the emulator, and whether each executes an
-- instruction of the given kind. `configure` stands for the calls that leave the view alone.
inductive Calls (H : History σ) (view : Machine → α) (kind : Instruction → Machine → Prop) (h : Host) :
    Activity × σ → Prop → Activity × σ → Prop where
  | reset (e : Emulator) (t : σ) : Calls H view kind h (.idle e,t) False (.idle e.reset,H.zero)
  | configure (e e' : Emulator) (t : σ) : view e'.core = view e.core → Calls H view kind h (.idle e,t) False (.idle e',t)
  | step (e : Emulator) (m : Machine) (t : σ) : Novium.step h e.core = .ok () m →
      Calls H view kind h (.idle e,t) (e.core.Next kind) (.idle ⟨m,e.blockCache⟩,H.step h e.core t)
  | stepThrown (e : Emulator) (err : EmulatorError) (m : Machine) (t : σ) : Novium.step h e.core = .thrown err m →
      Calls H view kind h (.idle e,t) (e.core.Next kind) (.idle ⟨m,e.blockCache⟩,H.step h e.core t)
  | run (e : Emulator) (t : σ) : Calls H view kind h (.idle e,t) False (.running (.loop e.core) e.blockCache,t)
  | runNext (c d : RunConfig) (cache : BlockCache) (t : σ) : Novium.runNext h c = some d →
      Calls H view kind h (.running c cache,t) (c.Next kind) (.running d cache,H.runNext h t c)
  | runReturn (m : Machine) (cache : BlockCache) (t : σ) :
      Calls H view kind h (.running (.done m) cache,t) False (.idle ⟨m,cache⟩,t)
  | runThrown (err : EmulatorError) (m : Machine) (cache : BlockCache) (t : σ) :
      Calls H view kind h (.running (.thrown err m) cache,t) False (.idle ⟨m,cache⟩,t)
  | runFast (e : Emulator) (t : σ) : Calls H view kind h (.idle e,t) False (.fast (.loop e),t)
  | fastNext (c d : FastConfig) (t : σ) : Novium.fastNext h c = some d →
      Calls H view kind h (.fast c,t) (c.Next kind) (.fast d,H.fastNext h t c)
  | fastReturn (e : Emulator) (t : σ) : Calls H view kind h (.fast (.done e),t) False (.idle e,t)
  | fastThrown (err : EmulatorError) (e : Emulator) (t : σ) : Calls H view kind h (.fast (.thrown err e),t) False (.idle e,t)

def AnyCall (H : History σ) (view : Machine → α) (kind : Instruction → Machine → Prop) (h : Host) (c d : Activity × σ) : Prop :=
  ∃ met, H.Calls view kind h c met d

def CallWithout (H : History σ) (view : Machine → α) (kind : Instruction → Machine → Prop) (h : Host) (c d : Activity × σ) : Prop :=
  ∃ met, H.Calls view kind h c met d ∧ ¬ met

-- What makes a relation between history and machine hold in every state of such runs.
structure Keeps (H : History σ) (view : Machine → α) (kind : Instruction → Machine → Prop) (h : Host)
    (Inv : σ → Machine → Prop) : Prop where
  blind : ∀ (m : Machine) csr intc pc u timer lastPc lastGpr, view {m with
    csr := csr,intc := intc,regs := {m.regs with pc := pc},mmu := u,timer := timer,lastPc := lastPc,lastGpr := lastGpr} = view m
  quiet : ∀ (m : Machine) uart out, view {m with uart := uart,stdout := out} = view m
  viewed : ∀ t m m', view m' = view m → Inv t m → Inv t m'
  returned : ∀ t i m cycles after, Inv t m → execute h i m = .ok cycles after → ¬ kind i m →
    Inv (H.note h i m t) after.tickPeripherals
  thrown : ∀ t i m err after, Inv t m → execute h i m = .thrown err after → Inv (H.note h i m t) after
  reset : ∀ e : Emulator, Inv H.zero e.reset.core

def Holds (Inv : σ → Machine → Prop) (c : Activity × σ) : Prop := ∀ e, c.1.emulator = some e → Inv c.2 e.core

theorem Holds.of {Inv : σ → Machine → Prop} {c : Activity} {t : σ} {e : Emulator} (shows : c.emulator = some e)
    (holds : Inv t e.core) : Holds Inv (c,t) := by
  intro other found
  cases shows.symm.trans found
  exact holds

section Runs
variable {H : History σ} {view : Machine → α} {kind : Instruction → Machine → Prop} {h : Host} {Inv : σ → Machine → Prop} {t : σ}

theorem Keeps.step (keeps : H.Keeps view kind h Inv) {m : Machine} (holds : Inv t m) (without : ¬ m.Next kind) :
    (Novium.step h m).Sat (fun _ m' => Inv (H.step h m t) m') (fun _ m' => Inv (H.step h m t) m') (fun _ => True) := by
  cases halt : m.regs.halt with
  | true =>
    rw [step_halted h halt]
    simp only [History.step,halt,if_true]
    exact holds
  | false =>
    have saved : view (saveBefore m.deliverInterrupt) = view m := by
      rw [Machine.saveBefore_keeps view fun m pc gpr => keeps.blind m m.csr m.intc m.regs.pc m.mmu m.timer pc gpr]
      exact Machine.deliverInterrupt_keeps view (fun m csr intc pc => keeps.blind m csr intc pc m.mmu m.timer m.lastPc m.lastGpr) m
    have effect := fetch_effect (saveBefore m.deliverInterrupt)
    rw [step_running h halt]
    simp only [cycle,Exec.sat_bind,Exec.get_apply,Outcome.sat_ok,Exec.modify_apply,History.step,halt,Bool.false_eq_true,if_false]
    cases fetched : fetch (saveBefore m.deliverInterrupt) with
    | undefined why => trivial
    | thrown err pre =>
      rw [fetched] at effect
      cases effect
      exact keeps.viewed t m _ saved holds
    | ok i pre =>
      have ready := keeps.viewed t m pre (fetched_keeps view keeps.blind fetched) holds
      simp only [Outcome.sat_ok]
      cases ran : execute h i pre with
      | undefined why => trivial
      | thrown err after =>
        simp only [Outcome.sat_thrown]
        exact keeps.thrown t i pre err after ready ran
      | ok cycles after =>
        have noted := keeps.returned t i pre cycles after ready ran fun met => without ⟨halt,i,pre,fetched,met⟩
        refine keeps.viewed _ _ _ ?_ noted
        exact Machine.logStep_keeps view (fun m out => keeps.quiet m m.uart out) ..

theorem Keeps.replay (keeps : H.Keeps view kind h Inv) {m : Machine} {i : Instruction} (holds : Inv t m)
    (without : ¬ kind i m.advancePc) : (Novium.replay h i m).Sat (fun _ m' => Inv (H.note h i m.advancePc t) m')
      (fun _ m' => Inv (H.note h i m.advancePc t) m') (fun _ => True) := by
  have advanced : view m.advancePc = view m := keeps.blind m m.csr m.intc _ m.mmu m.timer m.lastPc m.lastGpr
  have ready := keeps.viewed t m m.advancePc advanced holds
  simp only [Novium.replay,Exec.sat_bind,Exec.modify_apply,Outcome.sat_ok]
  cases ran : execute h i m.advancePc with
  | ok cycles after => exact keeps.returned t i _ cycles after ready ran without
  | thrown err m' =>
    simp only [Outcome.sat_thrown]
    exact keeps.thrown t i _ err m' ready ran
  | undefined why => trivial

theorem Keeps.flush (keeps : H.Keeps view kind h Inv) {m : Machine} (holds : Inv t m) : Inv t m.flushUart :=
  keeps.viewed t m _ (keeps.quiet m _ _) holds

theorem Keeps.runNext (keeps : H.Keeps view kind h Inv) {c d : RunConfig} {cache : BlockCache}
    (holds : Holds Inv (.running c cache,t)) (next : Novium.runNext h c = some d) (without : ¬ c.Next kind) :
    Holds Inv (.running d cache,H.runNext h t c) := by
  cases runNext_moves next with
  | stepped m m' live ran =>
    have effect := keeps.step (holds ⟨m,cache⟩ rfl) fun met => without ⟨live,met⟩
    rw [ran] at effect
    simp only [History.runNext,live,if_true]
    exact .of rfl effect
  | threw m m' err live ran =>
    have effect := keeps.step (holds ⟨m,cache⟩ rfl) fun met => without ⟨live,met⟩
    rw [ran] at effect
    simp only [History.runNext,live,if_true]
    exact .of rfl effect
  | stuck =>
    intro e found
    cases found
  | stopped m stopped =>
    simp only [History.runNext,stopped,Bool.false_eq_true,if_false]
    exact .of rfl (keeps.flush (holds ⟨m,cache⟩ rfl))

theorem Holds.ofReplay {cache : BlockCache} {o : Outcome EmulatorError Hazard Machine Unit} {continued : Emulator → FastConfig}
    (holds : o.Sat (fun _ m' => Inv t m') (fun _ m' => Inv t m') (fun _ => True))
    (goes : ∀ e, (continued e).emulator = some e) : Holds Inv (.fast (.ofReplay cache continued o),t) := by
  cases o with
  | ok _ m' => exact .of (goes _) holds
  | thrown err m' => exact .of rfl holds
  | undefined why =>
    intro e found
    cases found

theorem Keeps.fastNext (keeps : H.Keeps view kind h Inv) {c d : FastConfig} (holds : Holds Inv (.fast c,t))
    (next : Novium.fastNext h c = some d) (without : ¬ c.Next kind) : Holds Inv (.fast d,H.fastNext h t c) := by
  cases fastNext_moves next with
  | traced e live verbose =>
    simp only [History.fastNext,live,verbose,Bool.and_self,if_true]
    exact .ofReplay (keeps.step (holds e rfl) fun met => without ⟨live,verbose,met⟩) fun _ => rfl
  | entered e blk cache live silent =>
    simp only [History.fastNext,silent,Bool.and_false,Bool.false_eq_true,if_false]
    exact .of rfl (holds e rfl)
  | unread e err cache live silent =>
    simp only [History.fastNext,silent,Bool.and_false,Bool.false_eq_true,if_false]
    exact .of rfl (holds e rfl)
  | stopped e stopped =>
    simp only [History.fastNext,stopped,Bool.false_and,Bool.false_eq_true,if_false]
    exact .of rfl (keeps.flush (holds e rfl))
  | replayed e blk i ins op live =>
    simp only [History.fastNext,op,live,if_true]
    apply Holds.ofReplay (keeps.replay (holds e rfl) fun met => without ⟨ins,op,live,met⟩)
    intro e'
    split <;> rfl
  | ended e blk i op =>
    simp only [History.fastNext,op]
    exact holds
  | left e blk i ins op stopped =>
    simp only [History.fastNext,op,stopped,Bool.false_eq_true,if_false]
    exact holds

theorem Keeps.start (keeps : H.Keeps view kind h Inv) (e : Emulator) : Holds Inv (.idle e.reset,H.zero) :=
  .of rfl (keeps.reset e)

theorem Keeps.call (keeps : H.Keeps view kind h Inv) {c d : Activity × σ} (holds : Holds Inv c)
    (call : H.CallWithout view kind h c d) : Holds Inv d := by
  obtain ⟨met,call,without⟩ := call
  cases call with
  | reset e => exact keeps.start e
  | configure e e' t same => exact .of rfl (keeps.viewed t _ _ same (holds e rfl))
  | step e m t ran =>
    have effect := keeps.step (holds e rfl) without
    rw [ran] at effect
    exact .of rfl effect
  | stepThrown e err m t ran =>
    have effect := keeps.step (holds e rfl) without
    rw [ran] at effect
    exact .of rfl effect
  | runNext c d cache t next => exact keeps.runNext holds next without
  | fastNext c d t next => exact keeps.fastNext holds next without
  | run | runReturn | runThrown | runFast | fastReturn | fastThrown => exact holds

theorem Keeps.path (keeps : H.Keeps view kind h Inv) {c d : Activity × σ} (holds : Holds Inv c)
    (path : ReflTransGen (H.CallWithout view kind h) c d) : Holds Inv d := by
  induction path with
  | refl => exact holds
  | tail _ call ih => exact keeps.call ih call

end Runs
end History
end Novium
