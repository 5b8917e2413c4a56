import Novium.ConsoleTrace
import Novium.DebugSession

namespace Novium
open Storage Effects StateTransition SmallStep Relation Text

-- What goes to the standard output in between are payloads of the UART, none of which holds a
-- newline but at its end.
structure Sent (m m' : Machine) : Prop where
  payloads : ∃ sent : List (List Byte), m'.stdout = m.stdout ++ sent.map Output.uartTx ∧
    ((0x0A : Byte) ∉ m.uart.txBuffer → (0x0A : Byte) ∉ m'.uart.txBuffer ∧ ∀ payload ∈ sent, (0x0A : Byte) ∉ payload.dropLast)

namespace Sent
variable {m m' k : Machine}

theorem none (uart : m'.uart = m.uart) (stdout : m'.stdout = m.stdout) : Sent m m' :=
  ⟨[],by simp [stdout],fun held => ⟨by rw [uart]; exact held,by simp⟩⟩

theorem refl (m : Machine) : Sent m m := none rfl rfl

theorem trans (first : Sent m k) (second : Sent k m') : Sent m m' := by
  obtain ⟨sent,stdout,held⟩ := first.payloads
  obtain ⟨sent',stdout',held'⟩ := second.payloads
  refine ⟨sent ++ sent',by simp [stdout,stdout'],fun start => ?_⟩
  obtain ⟨between,lines⟩ := held start
  obtain ⟨ends,lines'⟩ := held' between
  refine ⟨ends,fun payload member => ?_⟩
  rcases List.mem_append.mp member with earlier | later
  · exact lines payload earlier
  · exact lines' payload later

theorem of_same (sent : Sent m m') {n n' : Machine} (uart : n.uart = m.uart) (stdout : n.stdout = m.stdout)
    (uart' : n'.uart = m'.uart) (stdout' : n'.stdout = m'.stdout) : Sent n n' :=
  (none uart.symm stdout.symm : Sent n m).trans (sent.trans (none uart' stdout'))

end Sent

theorem UartDevice.printed_oneLine {buffer : List Byte} (held : (0x0A : Byte) ∉ buffer.dropLast) :
    (0x0A : Byte) ∉ (printed buffer).dropLast := by
  intro inside
  refine held ?_
  have shorter : printed buffer <+: buffer := List.takeWhile_prefix _
  obtain ⟨rest,whole⟩ := shorter
  rw [← whole]
  cases rest with
  | nil => simpa using inside
  | cons b rest =>
    rw [List.dropLast_append_cons]
    exact List.mem_append_left _ (List.dropLast_subset _ inside)

-- A newline in the transmit register empties the buffer.
theorem UartDevice.writeReg_oneLine {u : UartDevice} (held : (0x0A : Byte) ∉ u.txBuffer) (offset value : Word) :
    (0x0A : Byte) ∉ (u.writeReg offset value).1.txBuffer ∧ ∀ payload ∈ (u.writeReg offset value).2, (0x0A : Byte) ∉ payload.dropLast := by
  unfold writeReg
  dsimp only
  split
  · split
    · refine ⟨by simp,fun payload sent => ?_⟩
      cases sent
      apply printed_oneLine
      rwa [List.dropLast_concat]
    · rename_i quiet
      refine ⟨?_,fun payload sent => by cases sent⟩
      rw [not_or] at quiet
      simp only [List.mem_append,List.mem_singleton,not_or]
      refine ⟨held,fun newline => quiet.1 ?_⟩
      have low : (value &&& 0xFF).toNat = value.toNat%256 := Nat.and_two_pow_sub_one_eq_mod value.toNat 8
      have byte := congrArg BitVec.toNat newline
      apply BitVec.eq_of_toNat_eq
      rw [low]
      exact byte.symm
  · exact ⟨held,fun payload sent => by cases sent⟩

theorem UartDevice.flush_oneLine {u : UartDevice} (held : (0x0A : Byte) ∉ u.txBuffer) :
    (0x0A : Byte) ∉ u.flush.1.txBuffer ∧ ∀ payload ∈ u.flush.2, (0x0A : Byte) ∉ payload.dropLast := by
  unfold flush
  split
  · exact ⟨held,fun payload sent => by cases sent⟩
  · refine ⟨by simp,fun payload sent => ?_⟩
    cases sent
    exact printed_oneLine fun inside => held (List.dropLast_subset _ inside)

theorem Sent.uart {m m' : Machine} {u : UartDevice × Option (List Byte)} (uart : m'.uart = u.1)
    (stdout : m'.stdout = m.stdout ++ (u.2.map Output.uartTx).toList) (lines : (0x0A : Byte) ∉ m.uart.txBuffer →
      (0x0A : Byte) ∉ u.1.txBuffer ∧ ∀ payload ∈ u.2, (0x0A : Byte) ∉ payload.dropLast) : Sent m m' := by
  refine ⟨u.2.toList,?_,fun held => ?_⟩
  · rw [stdout]
    cases u.2 <;> rfl
  · rw [uart]
    refine ⟨(lines held).1,fun payload member => (lines held).2 payload ?_⟩
    simpa using member

theorem Sent.flushed (m : Machine) : Sent m m.flushUart := .uart rfl rfl UartDevice.flush_oneLine

def SendEffect (m : Machine) (o : Outcome EmulatorError Hazard Machine Word) : Prop :=
  o.Sat (fun _ m' => Sent m m') (fun _ m' => Sent m m') (fun _ => True)

namespace Handlers
variable {op : Opcode} {i : Instruction} {m : Machine}

theorem onRegs_sends {x : OnRegs Word} : SendEffect m (onRegs x m) := by
  unfold SendEffect
  rw [sat_onRegs]
  cases x m.regs with
  | ok a r => exact .none rfl rfl
  | thrown e r => exact .none rfl rfl
  | undefined why => trivial

theorem opLoad_sends : SendEffect m (opLoad i m) := by
  apply sat_opLoad trivial trivial
  · intro va _ _
    exact .none rfl rfl
  · intro va addr axi _ _
    exact sat_busRead (fun _ r _ => .none rfl rfl) (fun _ _ => .none rfl rfl) (fun _ => trivial)

theorem busWrite_sends (addr value : Word) (m : Machine) :
    (Bus.write32 addr value m).Sat (fun _ m' => Sent m m') (fun _ m' => Sent m m') (fun _ => True) := by
  simp only [Bus.write32,Exec.sat_bind,Exec.get_apply,Outcome.sat_ok]
  cases m.deviceAt addr with
  | none =>
    simp only [Exec.sat_bind,Exec.modify_apply,Outcome.sat_ok]
    cases VirtualSRAM.write32 m.scratchpad addr value with
    | error e => exact .none rfl rfl
    | ok ram => exact .none rfl rfl
  | some kind =>
    cases kind with
    | timer => exact .none rfl rfl
    | uart => exact .uart rfl rfl fun held => m.uart.writeReg_oneLine held _ _
    | shared =>
      cases m.shared with
      | none => trivial
      | some ram =>
        dsimp only
        rw [Exec.ite_apply]
        split
        · exact .none rfl rfl
        · trivial

theorem opStore_sends : SendEffect m (opStore i m) := by
  apply sat_opStore trivial trivial
  · intro va _ _
    exact .none rfl rfl
  · intro va addr value axi _ _ _
    refine (busWrite_sends addr value _).mono ?_ ?_ (fun _ _ => trivial)
    · intro _ m' sent
      exact sent.of_same rfl rfl rfl rfl
    · intro e m' sent
      exact sent.of_same rfl rfl rfl rfl

theorem dma_sends (h : Host) (dma : op.isDma) : SendEffect m (handler h op i m) := by
  refine sat_dma h dma ⟨?_,?_,?_,fun _ _ => trivial⟩
  · intro u va isStore _
    exact .none rfl rfl
  · intro s _ err
    exact .none rfl rfl
  · intro s _ axi
    rcases dma with rfl | rfl
    · exact .none rfl rfl
    · exact .none rfl rfl

end Handlers

open Handlers

theorem handler_sends (h : Host) (op : Opcode) (i : Instruction) (m : Machine) : SendEffect m (handler h op i m) := by
  cases op with
  | load => exact opLoad_sends
  | store => exact opStore_sends
  | loadVr => exact sat_opLoadVr trivial (fun _ => .none rfl rfl) fun _ _ => .none rfl rfl
  | storeVr => exact sat_opStoreVr trivial (fun _ => .none rfl rfl) fun _ _ _ => .none rfl rfl
  | dmaLoad => exact dma_sends h (.inl rfl)
  | dmaStore => exact dma_sends h (.inr rfl)
  | _ => exact onRegs_sends

theorem execute_sends (h : Host) (i : Instruction) (m : Machine) : SendEffect m (execute h i m) := by
  unfold execute
  cases opcode : i.opcode with
  | none =>
    simp only [illegal,SendEffect,Exec.sat_bind,Exec.get_apply,Outcome.sat_ok,Exec.ite_apply]
    split
    · exact .none rfl rfl
    · exact .none rfl rfl
  | some op =>
    simp only [SendEffect,Exec.sat_bind,Exec.modify_apply,Exec.pure_apply,Outcome.sat_ok]
    refine (handler_sends h op i m).mono ?_ (fun _ _ sent => sent) (fun _ _ => trivial)
    intro cycles m' sent
    exact sent.of_same rfl rfl rfl rfl

structure Shown where
  gpr : Fin numGpr → Word
  status : StatusFlags
  pc : Word

def Machine.shown (m : Machine) : Shown := ⟨readAllGpr m.regs,m.regs.status,m.regs.pc⟩

-- The registers after a line, from those before it.
def retrace (s : Shown) (line : StepLine) : Shown where
  gpr k := ((line.changed.find? fun c => c.1 == k).map Prod.snd).getD (s.gpr k)
  status := line.status
  pc := line.newPc.getD (line.pc+4)

theorem find_noted {α β : Type} [DecidableEq α] (f : α → β) (p : α → Bool) (l : List α) (a : α) :
    ((l.filter p).map fun b => (b,f b)).find? (fun c => c.1 == a) = if a ∈ l ∧ p a = true then some (a,f a) else none := by
  induction l with
  | nil => simp
  | cons b l ih =>
    by_cases kept : p b = true
    · by_cases here : b = a
      · subst here
        simp [kept]
      · simp [kept,here,Ne.symm here,ih]
    · by_cases here : b = a
      · subst here
        simp [kept,ih]
      · simp [kept,Ne.symm here,ih]

theorem retrace_stepLine {m : Machine} {s : Shown} (last : m.lastGpr = s.gpr) (pc : Word) (i : Instruction) (cycles : Word) :
    retrace s (stepLine pc i cycles m) = m.shown := by
  unfold retrace stepLine Machine.shown
  rw [Shown.mk.injEq]
  refine ⟨funext fun k => ?_,rfl,?_⟩
  · rw [find_noted (readAllGpr m.regs)]
    by_cases changed : readAllGpr m.regs k = m.lastGpr k
    · simp [changed,last]
    · simp [changed,List.mem_finRange]
  · dsimp only
    split
    · rfl
    · rename_i same
      exact (not_not.mp same).symm

theorem stepLine_short (pc : Word) (i : Instruction) (cycles : Word) (m : Machine) :
    (stepLine pc i cycles m).changed.length ≤ numGpr := by
  have few := List.length_filter_le (fun k => decide (readAllGpr m.regs k ≠ m.lastGpr k)) (List.finRange numGpr)
  rw [List.length_finRange] at few
  simpa [stepLine] using few

-- What a step of a tracing machine shows: a line from which the registers can be told, or no
-- line and no change but in the pc.
inductive Shows (m m' : Machine) : Prop where
  | silent : Sent m m' → m'.shown.gpr = m.shown.gpr → m'.shown.status = m.shown.status → Shows m m'
  | line (k : Machine) (line : StepLine) : Sent m k → m'.uart = k.uart → m'.stdout = k.stdout ++ [.logStep line] →
      line.changed.length ≤ numGpr → m'.shown = retrace m.shown line → Shows m m'

def Machine.traced (m : Machine) : UartDevice × List Output × Bool × (Fin numGpr → Word) × StatusFlags :=
  (m.uart,m.stdout,m.verbose,readAllGpr m.regs,m.regs.status)

theorem readAllGpr_of_gpr {r r' : RegisterFile} (same : r'.gpr = r.gpr) : readAllGpr r' = readAllGpr r := by
  funext k
  simp only [readAllGpr,same]

theorem fetched_traced {i : Instruction} {m pre : Machine} (fetched : fetch (saveBefore m.deliverInterrupt) = .ok i pre) :
    pre.traced = m.traced := fetched_keeps Machine.traced (fun _ _ _ _ _ _ _ _ => rfl) fetched

theorem fetched_last {i : Instruction} {m pre : Machine} (verbose : m.verbose = true)
    (fetched : fetch (saveBefore m.deliverInterrupt) = .ok i pre) : pre.lastGpr = m.shown.gpr := by
  have delivered : m.deliverInterrupt.verbose = m.verbose := m.deliverInterrupt_keeps Machine.verbose (fun _ _ _ _ => rfl)
  have shown : readAllGpr m.deliverInterrupt.regs = readAllGpr m.regs :=
    m.deliverInterrupt_keeps (fun m => readAllGpr m.regs) (fun _ _ _ _ => rfl)
  have saved : (saveBefore m.deliverInterrupt).lastGpr = m.shown.gpr := by
    unfold saveBefore
    rw [if_pos (delivered.trans verbose)]
    exact shown
  cases fetch_ok fetched with
  | word timer => exact saved
  | fault => exact saved

theorem execute_watch {h : Host} {i : Instruction} {cycles : Word} {m m' : Machine} (ran : execute h i m = .ok cycles m') :
    m'.verbose = m.verbose ∧ m'.lastGpr = m.lastGpr := by
  rcases execute_ok ran with executed | trapped
  · exact ⟨congrArg Control.verbose executed.control,congrArg Control.lastGpr executed.control⟩
  · obtain ⟨_,_,_,_,_,rfl⟩ := trapped
    exact ⟨rfl,rfl⟩

theorem Stepped.shows {h : Host} {m m' : Machine} (verbose : m.verbose = true) (stepped : Stepped h m m') : Shows m m' := by
  cases halt : m.regs.halt with
  | true =>
    cases stepped.unique (.returned (step_halted h halt))
    exact .silent (.refl m) rfl rfl
  | false =>
    have delivered : m.deliverInterrupt.traced = m.traced := m.deliverInterrupt_keeps Machine.traced (fun _ _ _ _ => rfl)
    have saved : (saveBefore m.deliverInterrupt).traced = m.traced :=
      (Machine.saveBefore_keeps Machine.traced (fun _ _ _ => rfl) _).trans delivered
    have effect := cycle_effect h m.deliverInterrupt
    rw [← step_running h halt] at effect
    cases stepped with
    | returned ran =>
      rw [ran] at effect
      cases effect with
      | @ran i pre cycles after fetched executed =>
        have before := fetched_traced fetched
        obtain ⟨tracing,last⟩ := execute_watch executed
        have sends := execute_sends h i pre
        rw [SendEffect,executed] at sends
        have sent : Sent m after := sends.of_same (congrArg Prod.fst before).symm (congrArg (fun t => t.2.1) before).symm rfl rfl
        have ticked : after.tickPeripherals.traced = after.traced := Machine.tickPeripherals_keeps Machine.traced (fun _ => rfl) after
        have ticking : after.tickPeripherals.lastGpr = after.lastGpr := Machine.tickPeripherals_keeps Machine.lastGpr (fun _ => rfl) after
        have live : after.tickPeripherals.verbose = true :=
          (congrArg (fun t => t.2.2.1) ticked).trans (tracing.trans ((congrArg (fun t => t.2.2.1) before).trans verbose))
        unfold logStep
        rw [if_pos live]
        refine .line after.tickPeripherals _ (sent.of_same rfl rfl (congrArg Prod.fst ticked) (congrArg (fun t => t.2.1) ticked)) rfl rfl
          (stepLine_short ..) ?_
        exact (retrace_stepLine (ticking.trans (last.trans (fetched_last verbose fetched))) ..).symm
    | thrown ran =>
      rw [ran] at effect
      cases effect with
      | fetch =>
        exact .silent (.none (congrArg Prod.fst saved) (congrArg (fun t => t.2.1) saved)) (congrArg (fun t => t.2.2.2.1) saved)
          (congrArg (fun t => t.2.2.2.2) saved)
      | @execute i pre _ _ fetched executed =>
        have before := fetched_traced fetched
        have sends := execute_sends h i pre
        rw [SendEffect,executed] at sends
        have regs := (execute_thrown executed).regs
        refine .silent (sends.of_same (congrArg Prod.fst before).symm (congrArg (fun t => t.2.1) before).symm rfl rfl) ?_ ?_
        · exact (readAllGpr_of_gpr (congrArg RegisterFile.gpr regs)).trans (congrArg (fun t => t.2.2.2.1) before)
        · exact (congrArg RegisterFile.status regs).trans (congrArg (fun t => t.2.2.2.2) before)

-- Lines that retrace a play: the numbers of the steps they are of, the registers after each of
-- these steps as the lines so far tell them, and those at the end.
structure Retraces (h : Host) (start : Machine) (lines : List StepLine) (moments : List Nat) (last : Nat) (m : Machine) : Prop where
  count : moments.length = lines.length
  increasing : moments.Pairwise (· < ·)
  within : ∀ n ∈ moments, n ≤ last
  told : ∀ k n, moments[k]? = some n → ∃ m', Plays h n start m' ∧ m'.shown = (lines.take (k+1)).foldl retrace start.shown
  gpr : (lines.foldl retrace start.shown).gpr = m.shown.gpr
  status : (lines.foldl retrace start.shown).status = m.shown.status

-- What holds all through a session that is traced.
structure Recorded (h : Host) (start m : Machine) : Prop where
  tracing : m.verbose = true
  held : (0x0A : Byte) ∉ m.uart.txBuffer
  printed : ∃ out moments last plain, m.stdout = start.stdout ++ out ∧ (∀ o ∈ out, o.OneLine) ∧ Plays h last start plain ∧
    Watched plain m ∧ Retraces h start (out.filterMap Output.logged) moments last m

section Recorded
variable {h : Host} {start m m' : Machine} {lines : List StepLine} {moments : List Nat} {last : Nat}

theorem Watched.regs (same : Watched m m') : m'.regs = m.regs := by
  cases same
  rfl

theorem Watched.shown (same : Watched m m') : m'.shown = m.shown := by
  unfold Machine.shown
  rw [same.regs]

theorem retrace_of_gpr {s s' : Shown} (same : s.gpr = s'.gpr) (line : StepLine) : retrace s line = retrace s' line := by
  unfold retrace
  rw [same]

theorem Retraces.silent (retraces : Retraces h start lines moments last m) {next : Nat} (later : last ≤ next)
    (gpr : m'.shown.gpr = m.shown.gpr) (status : m'.shown.status = m.shown.status) :
    Retraces h start lines moments next m' where
  count := retraces.count
  increasing := retraces.increasing
  within n member := (retraces.within n member).trans later
  told := retraces.told
  gpr := retraces.gpr.trans gpr.symm
  status := retraces.status.trans status.symm

theorem Retraces.line (retraces : Retraces h start lines moments last m) {line : StepLine} {plain : Machine}
    (plays : Plays h (last+1) start plain) (same : plain.shown = m'.shown) (shown : m'.shown = retrace m.shown line) :
    Retraces h start (lines ++ [line]) (moments ++ [last+1]) (last+1) m' := by
  have whole : (lines ++ [line]).foldl retrace start.shown = m'.shown := by
    rw [List.foldl_append,List.foldl_cons,List.foldl_nil,shown]
    exact retrace_of_gpr retraces.gpr line
  refine ⟨by simp [retraces.count],?_,?_,?_,congrArg Shown.gpr whole,congrArg Shown.status whole⟩
  · refine List.pairwise_append.mpr ⟨retraces.increasing,List.pairwise_singleton _ _,?_⟩
    intro n member n' final
    cases List.mem_singleton.mp final
    exact Nat.lt_succ_of_le (retraces.within n member)
  · intro n member
    rcases List.mem_append.mp member with earlier | final
    · exact (retraces.within n earlier).trans (Nat.le_succ _)
    · exact (List.mem_singleton.mp final).le
  · intro k n here
    rcases Nat.lt_trichotomy k moments.length with before | rfl | beyond
    · rw [List.getElem?_append_left before] at here
      rw [List.take_append_of_le_length (by rw [← retraces.count]; exact before)]
      exact retraces.told k n here
    · rw [List.getElem?_concat_length] at here
      cases here
      refine ⟨plain,plays,same.trans ?_⟩
      rw [retraces.count,← whole,List.take_of_length_le (by simp)]
    · rw [List.getElem?_eq_none (by simp; omega)] at here
      cases here

theorem Sent.extends (sent : Sent m m') {out : List Output} (held : (0x0A : Byte) ∉ m.uart.txBuffer)
    (stdout : m.stdout = start.stdout ++ out) (oneLine : ∀ o ∈ out, o.OneLine) : (0x0A : Byte) ∉ m'.uart.txBuffer ∧
      ∃ out', m'.stdout = start.stdout ++ out' ∧ (∀ o ∈ out', o.OneLine) ∧
        out'.filterMap Output.logged = out.filterMap Output.logged := by
  obtain ⟨payloads,added,lines⟩ := sent.payloads
  obtain ⟨held',short⟩ := lines held
  refine ⟨held',out ++ payloads.map Output.uartTx,by simp [added,stdout],fun o member => ?_,?_⟩
  · rcases List.mem_append.mp member with earlier | later
    · exact oneLine o earlier
    · obtain ⟨payload,listed,rfl⟩ := List.mem_map.mp later
      exact short payload listed
  · simp [List.filterMap_append,List.filterMap_map,Function.comp_def,Output.logged]

theorem Recorded.stepped (recorded : Recorded h start m) (stepped : Stepped h m m') : Recorded h start m' := by
  obtain ⟨tracing,held,out,moments,last,plain,stdout,oneLine,plays,same,retraces⟩ := recorded
  obtain ⟨plain',next,same'⟩ := stepped.watched same.symm
  have longer : Plays h (last+1) start plain' := plays.append (.one next)
  have verbose : m'.verbose = m.verbose := congrArg (fun s : TargetProfile × Debugger × Bool => s.2.2) stepped.lasts.settings
  have tracing' := verbose.trans tracing
  cases stepped.shows tracing with
  | silent sent gpr status =>
    obtain ⟨held',out',stdout',oneLine',logged⟩ := sent.extends held stdout oneLine
    refine ⟨tracing',held',out',moments,last+1,plain',stdout',oneLine',longer,same'.symm,?_⟩
    rw [logged]
    exact retraces.silent (Nat.le_succ _) gpr status
  | line k line sent uart shown short moved =>
    obtain ⟨held',out',stdout',oneLine',logged⟩ := sent.extends held stdout oneLine
    refine ⟨tracing',by rw [uart]; exact held',out' ++ [.logStep line],moments ++ [last+1],last+1,plain',by simp [shown,stdout'],?_,longer,
      same'.symm,?_⟩
    · intro o member
      rcases List.mem_append.mp member with earlier | final
      · exact oneLine' o earlier
      · cases List.mem_singleton.mp final
        exact short
    · rw [List.filterMap_append,logged]
      exact retraces.line longer same'.shown moved

theorem Recorded.flushed (recorded : Recorded h start m) : Recorded h start m.flushUart := by
  obtain ⟨tracing,held,out,moments,last,plain,stdout,oneLine,plays,same,retraces⟩ := recorded
  obtain ⟨held',out',stdout',oneLine',logged⟩ := (Sent.flushed m).extends held stdout oneLine
  refine ⟨tracing,held',out',moments,last,plain,stdout',oneLine',plays,same.trans (.flushed m),?_⟩
  rw [logged]
  exact retraces.silent le_rfl rfl rfl

theorem Recorded.debugged (recorded : Recorded h start m) (d : Debugger) : Recorded h start {m with debugger := d} := by
  obtain ⟨tracing,held,out,moments,last,plain,stdout,oneLine,plays,same,retraces⟩ := recorded
  exact ⟨tracing,held,out,moments,last,plain,stdout,oneLine,plays,same.trans (.of_watch rfl),retraces.silent le_rfl rfl rfl⟩

theorem recorded_survives (h : Host) (start : Machine) : Survives h (Recorded h start) where
  stepped recorded stepped := recorded.stepped stepped
  flushed recorded := recorded.flushed
  debugged recorded d := recorded.debugged d

-- The trace tells the run. Read back from the standard output of any traced session, whatever
-- the guest sent there in between, the lines belong to steps of the plain execution, in order,
-- and replaying them over the first registers gives the registers and flags after each of these
-- steps, with the pc, and the registers and flags at the end.
theorem trace_replays {e e' : Emulator} {calls : List DebugCall} (session : DebugSession h e calls e')
    (quiet : .read32 (mmioBase+0x0C) ∉ calls) (kept : .setVerbose false ∉ calls) (tracing : e.core.verbose = true)
    (held : (0x0A : Byte) ∉ e.core.uart.txBuffer) : ∃ out lines moments last plain, e'.core.stdout = e.core.stdout ++ out ∧
      readTrace (console out) = some lines ∧ Plays h last e.core plain ∧ Watched plain e'.core ∧
        Retraces h e.core lines moments last e'.core := by
  have start : Recorded h e.core e.core :=
    ⟨tracing,held,[],[],0,_,by simp,by simp,.stay,.refl _,⟨rfl,.nil,by simp,by simp,rfl,rfl⟩⟩
  have ends : Recorded h e.core e'.core := by
    refine (recorded_survives h e.core).session quiet ?_ session start
    intro on m switched recorded
    cases on with
    | false => exact absurd switched kept
    | true =>
      have same : {m with verbose := true} = m := by
        rw [← recorded.tracing]
      rw [same]
      exact recorded
  obtain ⟨_,_,out,moments,last,plain,stdout,oneLine,plays,same,retraces⟩ := ends
  refine ⟨out,_,moments,last,plain,stdout,?_,plays,same,retraces⟩
  unfold readTrace
  rw [console_lines oneLine,readSteps oneLine]

end Recorded

-- MOVI r1,5; HALT traced in one run: the lines that it printed tell r1.
theorem trace_replays_run : ∃ start e' lines,
    start.core = {(Emulator.programmed [Enc.movi 1 5,Enc.halt]).core with verbose := true} ∧
      DebugSession (.ieee .scalar) start [.run] e' ∧ readTrace (console e'.core.stdout) = some lines ∧
        (lines.foldl retrace start.core.shown).gpr 1 = 5 := by
  obtain ⟨c,running,ended⟩ := reaches_of_any (by decide +kernel :
    (after (runNext (.ieee .scalar)) 3 (.loop {(Emulator.programmed [Enc.movi 1 5,Enc.halt]).core with verbose := true})).any (fun
      | .done m => m.shown.gpr 1 == 5
      | _ => false) = true)
  cases c with
  | done m =>
    let start : Emulator :=
      ⟨{(Emulator.programmed [Enc.movi 1 5,Enc.halt]).core with verbose := true},(Emulator.programmed [Enc.movi 1 5,Enc.halt]).blockCache⟩
    have session : DebugSession (.ieee .scalar) start [.run] ⟨m,start.blockCache⟩ := DebugSession.start.call _ (.run (.returned running))
    obtain ⟨out,lines,_,_,_,stdout,read,_,_,retraces⟩ := trace_replays session (by decide) (by decide) rfl (by decide)
    refine ⟨start,_,lines,rfl,session,?_,?_⟩
    · rw [stdout]
      exact read
    · rw [retraces.gpr]
      exact beq_iff_eq.mp ended
  | loop m | thrown err m | undefined why => cases ended

end Novium
