import Novium.SharedMemory
import Novium.StateInvariant

namespace Novium
open Storage Effects Relation Handlers
variable {h : Host} {m m' : Machine} {i : Instruction} {op : Opcode}

def Machine.windowSize (m : Machine) : Option Nat := m.shared.map ByteStore.size

def KeepsWindow {α : Type} (m : Machine) (o : Outcome EmulatorError Hazard Machine α) : Prop :=
  o.Sat (fun _ m' => m'.windowSize = m.windowSize) (fun _ m' => m'.windowSize = m.windowSize) (fun _ => True)

theorem busWrite_keepsWindow (addr value : Word) (m : Machine) : KeepsWindow m (Bus.write32 addr value m) := by
  simp only [KeepsWindow,Bus.write32,Exec.sat_bind,Exec.get_apply,Outcome.sat_ok]
  cases m.deviceAt addr with
  | none =>
    simp only [Exec.sat_bind,Exec.modify_apply,Outcome.sat_ok]
    cases VirtualSRAM.write32 m.scratchpad addr value with
    | error e => exact rfl
    | ok ram => exact rfl
  | some kind =>
    cases kind with
    | timer => exact rfl
    | uart => exact rfl
    | shared =>
      cases shared : m.shared with
      | none => trivial
      | some ram =>
        dsimp only
        rw [Exec.ite_apply]
        split
        · simp only [Exec.modify_apply,Outcome.sat_ok,Machine.windowSize,shared,Option.map_some,ByteStore.write_size]
        · trivial

theorem windowSize_of_storage (same : m'.storage = m.storage) : m'.windowSize = m.windowSize :=
  congrArg (fun s : ByteStore × ByteStore × UartDevice × Option ByteStore => s.2.2.2.map ByteStore.size) same

theorem handler_keepsWindow (h : Host) (op : Opcode) (i : Instruction) (m : Machine) (opcode : i.opcode = some op) :
    KeepsWindow m (handler h op i m) := by
  by_cases stores : op.stores i = true
  · cases op with
    | store =>
      apply sat_opStore trivial trivial
      · intro va _ _
        exact rfl
      · intro va addr value axi _ _ _
        exact busWrite_keepsWindow addr value {m.afterResolve va true with axi := axi}
    | storeVr => exact sat_opStoreVr trivial (fun _ => rfl) fun _ _ _ => rfl
    | dmaLoad => exact sat_dma h (.inl rfl) ⟨fun _ _ _ _ => rfl,fun _ _ _ => rfl,fun _ _ _ => rfl,fun _ _ => trivial⟩
    | dmaStore => exact sat_dma h (.inr rfl) ⟨fun _ _ _ _ => rfl,fun _ _ _ => rfl,fun _ _ _ => rfl,fun _ _ => trivial⟩
    | _ => cases stores
  · have still : op.stores i = false := by simpa using stores
    refine (handler_frame h m opcode).mono ?_ ?_ (fun _ _ => trivial)
    · intro _ m' framed
      exact windowSize_of_storage (framed.storage still)
    · intro _ m' unframed
      exact windowSize_of_storage unframed.storage

theorem execute_keepsWindow (h : Host) (i : Instruction) (m : Machine) : KeepsWindow m (execute h i m) := by
  unfold execute
  cases opcode : i.opcode with
  | none =>
    simp only [KeepsWindow,illegal,Exec.sat_bind,Exec.get_apply,Outcome.sat_ok,Exec.ite_apply]
    split
    · exact rfl
    · exact rfl
  | some op =>
    simp only [KeepsWindow,Exec.sat_bind,Exec.modify_apply,Exec.pure_apply,Outcome.sat_ok]
    exact (handler_keepsWindow h op i m opcode).mono (fun _ _ same => same) (fun _ _ same => same) (fun _ _ => trivial)

theorem Stepped.windowSize (stepped : Stepped h m m') : m'.windowSize = m.windowSize := by
  have fetching : (saveBefore m.deliverInterrupt).windowSize = m.windowSize := by
    rw [Machine.saveBefore_keeps Machine.windowSize fun _ _ _ => rfl,Machine.deliverInterrupt_keeps Machine.windowSize fun _ _ _ _ => rfl]
  rcases stepped.cases with rfl | ran | stopped
  · rfl
  · cases ran with
    | @ran i pre cycles after fetched executed =>
      have kept := execute_keepsWindow h i pre
      rw [executed] at kept
      rw [Machine.logStep_keeps Machine.windowSize fun _ _ => rfl,Machine.tickPeripherals_keeps Machine.windowSize fun _ => rfl]
      exact kept.trans (fetched_keeps Machine.windowSize (fun _ _ _ _ _ _ _ _ => rfl) fetched)
  · cases stopped with
    | fetch => exact fetching
    | @execute i pre err _ fetched threw =>
      have kept := execute_keepsWindow h i pre
      rw [threw] at kept
      exact kept.trans (fetched_keeps Machine.windowSize (fun _ _ _ _ _ _ _ _ => rfl) fetched)

-- A core steps on the cluster's bus and is put back: the RAM has the size it had, and the
-- core with it is the machine the step left.
theorem put_attached {c : Cluster} (stepped : Stepped h (m.attach c.sharedRam) m') (i : Nat) :
    (c.put i m').sharedRam.size = c.sharedRam.size ∧ m'.detach.attach (c.put i m').sharedRam = m' := by
  have same : m'.windowSize = some c.sharedRam.size := stepped.windowSize
  obtain ⟨ram,shared,size⟩ := Option.map_eq_some_iff.mp same
  have kept : (c.put i m').sharedRam = ram := by
    unfold Cluster.put
    dsimp only
    rw [shared]
    rfl
  rw [kept]
  refine ⟨size,?_⟩
  unfold Machine.attach Machine.detach
  rw [← shared]

theorem moves_window {a b : ClusterActivity} {c' : Cluster} (moves : ClusterMoves h a b) (after : b.cluster = some c') :
    ∃ c, a.cluster = some c ∧ c'.sharedRam.size = c.sharedRam.size := by
  obtain ⟨c,shown,deed⟩ := moves.cores after
  refine ⟨c,shown,?_⟩
  generalize a.stepping = due at deed
  cases deed with
  | still cores ram => rw [ram]
  | stepped j here running ran put =>
    rw [put]
    exact (put_attached (.returned ran) j).1
  | threw j here running ran put =>
    rw [put]
    exact (put_attached (.thrown ran) j).1

theorem reached_window {a : ClusterActivity} {c : Cluster} (path : ReflTransGen (ClusterMoves h) (.idle c) a) :
    ∀ d, a.cluster = some d → d.sharedRam.size = c.sharedRam.size := by
  induction path with
  | refl =>
    intro d here
    cases here
    rfl
  | tail path moves ih =>
    intro d here
    obtain ⟨e,shown,size⟩ := moves_window moves here
    exact size.trans (ih e shown)

-- An access at the offset touches bytes of the RAM only, or is refused.
def Contained {α : Type} (ram : ByteStore) (offset : Nat) (o : Outcome EmulatorError Hazard Machine α) : Prop :=
  o.Sat (fun _ _ => ∀ k < 4, offset+k < ram.size) (fun _ _ => True) (fun _ => False)

theorem contained_iff {α : Type} {ram : ByteStore} {offset : Nat} {a : α} {why : Hazard} :
    Contained ram offset (if offset+4 ≤ ram.size then .ok a m else .undefined why) ↔ offset+4 ≤ ram.size := by
  by_cases inside : offset+4 ≤ ram.size
  · rw [if_pos inside]
    refine ⟨fun _ => inside,fun _ k below => ?_⟩
    omega
  · rw [if_neg inside]
    exact ⟨fun impossible => impossible.elim,fun fits => absurd fits inside⟩

structure WindowSafe (c : Cluster) (m : Machine) (addr : Word) : Prop where
  read : Contained c.sharedRam (windowOffset addr) (Bus.read32 addr (m.attach c.sharedRam))
  write : ∀ value, Contained c.sharedRam (windowOffset addr) (Bus.write32 addr value (m.attach c.sharedRam))

theorem windowSafe_iff {c : Cluster} {addr : Word} (window : SharedWindow addr) (m : Machine) :
    WindowSafe c m addr ↔ windowOffset addr+4 ≤ c.sharedRam.size := by
  constructor
  · intro safe
    have read := safe.read
    rw [Bus.read32_window window rfl] at read
    exact contained_iff.mp read
  · intro inside
    refine ⟨?_,fun value => ?_⟩
    · rw [Bus.read32_window window rfl]
      exact contained_iff.mpr inside
    · rw [Bus.write32_window window rfl]
      exact contained_iff.mpr inside

-- The window has its size whatever the configuration gives the RAM.
theorem window_safe_iff (h : Host) (numCores scratchpadPerCore sharedRam : Nat) (quantum : DWord) (a : ClusterActivity) (c : Cluster)
    (path : ReflTransGen (ClusterMoves h) (.idle (.initial numCores scratchpadPerCore sharedRam quantum)) a) (here : a.cluster = some c) :
    ∀ m ∈ c.cores, (∀ addr, SharedWindow addr → (WindowSafe c m addr ↔ (addr-0x80000000).toNat+4 ≤ sharedRam)) ∧
      ((∀ addr, SharedWindow addr → WindowSafe c m addr) ↔ 0x01000003 ≤ sharedRam) := by
  intro m _
  have size : c.sharedRam.size = sharedRam := reached_window path c here
  have each : ∀ addr, SharedWindow addr → (WindowSafe c m addr ↔ (addr-0x80000000).toNat+4 ≤ sharedRam) := by
    intro addr window
    rw [windowSafe_iff window,size]
    rfl
  refine ⟨each,?_,?_⟩
  · intro safe
    exact (each 0x80FFFFFF (by decide)).mp (safe 0x80FFFFFF (by decide))
  · intro room addr window
    refine (windowSafe_iff window m).mpr (windowOffset_room window ?_)
    rw [size]
    exact room

theorem window_safe_last_word : WindowSafe (.initial 1 64 0x01000003 1000) (.initial 64 0x01000003) 0x80FFFFFF :=
  ((window_safe_iff (.ieee .scalar) 1 64 0x01000003 1000 _ _ .refl rfl _ (List.mem_singleton.mpr rfl)).1 0x80FFFFFF (by decide)).mpr (by decide)

-- One page of shared RAM behind a window of 16 MB.
theorem window_past_ram : ¬ ∀ (numCores scratchpadPerCore sharedRam : Nat) (quantum : DWord) (addr : Word), SharedWindow addr →
    ∀ m ∈ (Cluster.initial numCores scratchpadPerCore sharedRam quantum).cores,
      WindowSafe (.initial numCores scratchpadPerCore sharedRam quantum) m addr := by
  intro safe
  have inside := (windowSafe_iff (by decide) _).mp (safe 1 64 4096 1000 0x80001000 (by decide) _ (List.mem_singleton.mpr rfl))
  exact absurd inside (by decide)

end Novium
