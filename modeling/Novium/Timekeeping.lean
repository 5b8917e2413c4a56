import Novium.Devices

namespace Novium

-- A clock moved on passes a multiple of the interval just when what it had over the last
-- one and the cycles come to an interval.
theorem multiple_reached {interval : Nat} (positive : 0 < interval) (total cycles : Nat) :
    total/interval < (total+cycles)/interval ↔ interval ≤ total % interval+cycles := by
  have parts : (total+cycles)/interval = total/interval+(total % interval+cycles)/interval := by
    calc (total+cycles)/interval
        = (interval*(total/interval)+(total % interval+cycles))/interval := by
          rw [← Nat.add_assoc,Nat.div_add_mod]
      _ = total/interval+(total % interval+cycles)/interval := Nat.mul_add_div positive _ _
  rw [parts,Nat.lt_add_right_iff_pos,Nat.div_pos_iff]
  exact ⟨And.right,fun reached => ⟨positive,reached⟩⟩

namespace TimerDevice

def raises (t : TimerDevice) (cycles : DWord) : Bool := (({t with irqPending := false} : TimerDevice).tick cycles).irqPending

-- What one tick owes the time when the total before it is known.
structure OnTime (t : TimerDevice) (total : Nat) (cycles : DWord) : Prop where
  count : (t.tick cycles).count.toNat = (total+cycles.toNat) % t.limit.toNat
  below : (t.tick cycles).count.toNat < t.limit.toNat
  irq : t.raises cycles = true ↔ total/t.limit.toNat < (total+cycles.toNat)/t.limit.toNat

def KeepsTime (t : TimerDevice) (total : Nat) : List DWord → Prop
  | [] => True
  | cycles :: rest => t.OnTime total cycles ∧ (t.tick cycles).KeepsTime (total+cycles.toNat) rest

-- No tick takes the count to a second limit, nor out of 64 bits.
def Paced (limit total : Nat) : List DWord → Prop
  | [] => True
  | cycles :: rest => (total % limit+cycles.toNat < 2*limit ∧ total % limit+cycles.toNat < 2^64) ∧
      Paced limit (total+cycles.toNat) rest

section Ticks
variable {t : TimerDevice} {total : Nat}

theorem tick_limit (t : TimerDevice) (cycles : DWord) : (t.tick cycles).limit = t.limit ∧ (t.tick cycles).ctrl = t.ctrl := by
  unfold tick
  split
  · dsimp only
    split <;> exact ⟨rfl,rfl⟩
  · exact ⟨rfl,rfl⟩

theorem tick_running (running : t.ctrl = true) (cycles : DWord) :
    (t.tick cycles).count = (if t.limit ≤ t.count+cycles then t.count+cycles-t.limit else t.count+cycles) ∧
      t.raises cycles = decide (t.limit ≤ t.count+cycles) := by
  unfold raises tick
  rw [if_pos running,if_pos running]
  dsimp only
  by_cases expired : t.limit ≤ t.count+cycles
  · simp [expired]
  · simp [expired]

-- A sum that leaves 64 bits comes back below the limit, so that the expiry is missed.
theorem onTime_iff (cycles : DWord) (running : t.ctrl = true) (positive : 0 < t.limit.toNat) (synced : t.count.toNat = total % t.limit.toNat) :
    t.OnTime total cycles ↔ total % t.limit.toNat+cycles.toNat < 2*t.limit.toNat ∧ total % t.limit.toNat+cycles.toNat < 2^64 := by
  obtain ⟨count,raises⟩ := tick_running running cycles
  have reached := multiple_reached positive total cycles.toNat
  have remainder := Nat.mod_lt total positive
  have small := cycles.isLt
  have sum : (t.count+cycles).toNat = (total % t.limit.toNat+cycles.toNat) % 2^64 := by rw [BitVec.toNat_add,synced]
  have expired : t.limit ≤ t.count+cycles ↔ t.limit.toNat ≤ (total % t.limit.toNat+cycles.toNat) % 2^64 := by
    rw [BitVec.le_def,sum]
  have raised : t.raises cycles = true ↔ t.limit.toNat ≤ (total % t.limit.toNat+cycles.toNat) % 2^64 := by
    rw [raises,decide_eq_true_eq,expired]
  have counted : (t.tick cycles).count.toNat = if t.limit.toNat ≤ (total % t.limit.toNat+cycles.toNat) % 2^64
      then (total % t.limit.toNat+cycles.toNat) % 2^64-t.limit.toNat else (total % t.limit.toNat+cycles.toNat) % 2^64 := by
    rw [count]
    by_cases full : t.limit ≤ t.count+cycles
    · rw [if_pos full,if_pos (expired.mp full),BitVec.toNat_sub_of_le full,sum]
    · rw [if_neg full,if_neg (mt expired.mpr full),sum]
  constructor
  · intro onTime
    have flagged := onTime.irq
    rw [raised,reached] at flagged
    have below := onTime.below
    rw [counted] at below
    have fits : total % t.limit.toNat+cycles.toNat < 2^64 := by
      by_contra beyond
      have wrapped : (total % t.limit.toNat+cycles.toNat) % 2^64 = total % t.limit.toNat+cycles.toNat-2^64 := by omega
      omega
    rw [Nat.mod_eq_of_lt fits] at below
    split at below
    · exact ⟨by omega,fits⟩
    · exact ⟨by omega,fits⟩
  · rintro ⟨once,fits⟩
    rw [Nat.mod_eq_of_lt fits] at raised counted
    have due : (total+cycles.toNat) % t.limit.toNat = (total % t.limit.toNat+cycles.toNat) % t.limit.toNat :=
      (Nat.mod_add_mod _ _ _).symm
    by_cases full : t.limit.toNat ≤ total % t.limit.toNat+cycles.toNat
    · have rest : total % t.limit.toNat+cycles.toNat-t.limit.toNat < t.limit.toNat := by omega
      rw [if_pos full] at counted
      refine ⟨?_,counted ▸ rest,raised.trans reached.symm⟩
      rw [due,counted,Nat.mod_eq_sub_mod full,Nat.mod_eq_of_lt rest]
    · rw [if_neg full] at counted
      refine ⟨?_,counted ▸ Nat.not_le.mp full,raised.trans reached.symm⟩
      rw [due,counted,Nat.mod_eq_of_lt (Nat.not_le.mp full)]

theorem keepsTime_iff (running : t.ctrl = true) (positive : 0 < t.limit.toNat) (synced : t.count.toNat = total % t.limit.toNat)
    (ticks : List DWord) : t.KeepsTime total ticks ↔ Paced t.limit.toNat total ticks := by
  induction ticks generalizing t total with
  | nil => exact Iff.rfl
  | cons cycles rest ih =>
    unfold KeepsTime Paced
    obtain ⟨limit,ctrl⟩ := t.tick_limit cycles
    rw [← onTime_iff cycles running positive synced]
    refine and_congr_right fun onTime => ?_
    have later : (t.tick cycles).count.toNat = (total+cycles.toNat) % (t.tick cycles).limit.toNat := by
      rw [limit]
      exact onTime.count
    rw [ih (ctrl.trans running) (by rw [limit]; exact positive) later,limit]

end Ticks
end TimerDevice

theorem timer_keeps_time_iff (t : TimerDevice) (ticks : List DWord) (running : t.ctrl = true) (positive : 1 ≤ t.limit)
    (zero : t.count = 0) : t.KeepsTime 0 ticks ↔ TimerDevice.Paced t.limit.toNat 0 ticks := by
  have some : 0 < t.limit.toNat := BitVec.le_def.mp positive
  refine TimerDevice.keepsTime_iff running some ?_ ticks
  rw [zero,Nat.zero_mod]
  rfl

theorem timer_keeps_time_twice : (⟨0,10000,true,false⟩ : TimerDevice).KeepsTime 0 [1000,9500] :=
  (timer_keeps_time_iff ⟨0,10000,true,false⟩ [1000,9500] rfl (by decide) rfl).mpr ⟨⟨by decide,by decide⟩,⟨by decide,by decide⟩,trivial⟩

-- A 500-cycle interval under the emulator's tick of 1000 cycles.
theorem timer_falls_behind : ¬ ∀ (t : TimerDevice) (ticks : List DWord), t.ctrl = true → 1 ≤ t.limit → t.count = 0 → t.KeepsTime 0 ticks := by
  intro right
  obtain ⟨onTime,_⟩ := right ⟨0,500,true,false⟩ [1000] rfl (by decide) rfl
  exact absurd onTime.below (by decide)

end Novium
