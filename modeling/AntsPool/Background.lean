import AntsPool.Accounts

/-!
# One scavenger and one clock thread

A reboot waits until both done flags are set, and clears each of them before it
starts the thread that will set it again. As long as the flag it clears is still
set, the flag, the thread that is alive and the reboot about to start one are one
unit together, in whatever order the calls overlap.
-/
namespace AntsPool
open Interleaving ListTotals

namespace Thread

/-- A purge thread that has not set its done flag and still may. -/
def purgeAlive : Thread → Bool
  | .purge .returned | .purge .panicked => false
  | .purge _ => true
  | _ => false

def ticktockAlive : Thread → Bool
  | .ticktock .returned => false
  | .ticktock _ => true
  | _ => false

/-- A live purge thread, one that has died before it could set its flag, or a reboot that
has cleared the flag and has yet to start one. -/
def purgeDue : Thread → Bool
  | .purge .panicked => true
  | .reboot .purgeCtx | .reboot (.purgeStop _) | .reboot .purgeSpawn => true
  | t => t.purgeAlive

def ticktockDue : Thread → Bool
  | .reboot .ticktockNow | .reboot .ticktockCtx | .reboot (.ticktockStop _)
  | .reboot .ticktockSpawn => true
  | t => t.ticktockAlive

theorem purgeDue_of_alive {t : Thread} (h : t.purgeAlive = true) : t.purgeDue = true := by
  cases t with
  | purge t => cases t <;> first | rfl | exact h
  | _ => cases h

theorem ticktockDue_of_alive {t : Thread} (h : t.ticktockAlive = true) : t.ticktockDue = true := by
  cases t with
  | ticktock t => exact h
  | _ => cases h

end Thread

/-- A reboot clears a done flag only while the flag is still set. -/
def flagsStand (o : Options) (x : Config) : Move → Prop
  | .call _ => True
  | .step i _ => ∀ t ∈ x.threads[i]?,
      (t = .reboot .clearPurge → o.disablePurge = false → x.shared.purgeDone = true) ∧
      (t = .reboot .clearTicktock → x.shared.ticktockDone = true)

instance (o : Options) (x : Config) : (m : Move) → Decidable (flagsStand o x m)
  | .call _ => inferInstanceAs (Decidable True)
  | .step i _ => inferInstanceAs (Decidable (∀ t ∈ x.threads[i]?,
      (t = .reboot .clearPurge → o.disablePurge = false → x.shared.purgeDone = true) ∧
      (t = .reboot .clearTicktock → x.shared.ticktockDone = true)))

/-- What a step does to a done flag, to its own duty to set it, and how many threads
with that duty it starts. -/
inductive FlagStep : Bool → Bool → Bool → Bool → ℕ → Prop
  | same (flag due : Bool) : FlagStep flag flag due due 0
  | set (flag : Bool) : FlagStep flag true true false 0
  | clear : FlagStep true false false true 0
  | disabled (flag : Bool) : FlagStep flag false false false 0
  | start (flag : Bool) : FlagStep flag flag true false 1

theorem FlagStep.le {flag flag' due due' : Bool} {n : ℕ} (h : FlagStep flag flag' due due' n) :
    flag'.toNat + due'.toNat + n ≤ flag.toNat + due.toNat := by
  cases h with
  | same => exact le_rfl
  | set => exact Nat.le_add_left 1 _
  | clear => exact le_rfl
  | disabled => exact Nat.zero_le _
  | start => exact le_rfl

theorem Thread.Step.purgeStep {o : Options} {i : ℕ} {s s' : PoolCore} {t t' : Thread}
    {new : List Thread} (h : Thread.Step o i s t s' t' new)
    (hflag : t = .reboot .clearPurge → o.disablePurge = false → s.purgeDone = true) :
    FlagStep s.purgeDone s'.purgeDone t.purgeDue t'.purgeDue (new.countP Thread.purgeDue) := by
  cases h with
  | submit h => cases h <;> exact .same _ _
  | work h => cases h <;> exact .same _ _
  | purge h =>
      cases h with
      | done => exact .set _
      | _ => exact .same _ _
  | release h =>
      cases h with
      | reset =>
          obtain ⟨_, _, hr, _⟩ := Release.reset_frame i s
          rw [hr]
          exact .same _ _
      | _ => exact .same _ _
  | reboot h =>
      cases h with
      | clearPurge hd =>
          rw [hflag rfl hd]
          exact .clear
      | clearNoPurge => exact .disabled _
      | purgeSpawn => exact .start _
      | _ => exact .same _ _
  | ticktock h => cases h <;> exact .same _ _
  | tune h => cases h <;> exact .same _ _
  | clock => exact .same _ _

theorem Thread.Step.ticktockStep {o : Options} {i : ℕ} {s s' : PoolCore} {t t' : Thread}
    {new : List Thread} (h : Thread.Step o i s t s' t' new)
    (hflag : t = .reboot .clearTicktock → s.ticktockDone = true) :
    FlagStep s.ticktockDone s'.ticktockDone t.ticktockDue t'.ticktockDue
      (new.countP Thread.ticktockDue) := by
  cases h with
  | submit h => cases h <;> exact .same _ _
  | work h => cases h <;> exact .same _ _
  | ticktock h =>
      cases h with
      | done => exact .set _
      | _ => exact .same _ _
  | release h =>
      cases h with
      | reset =>
          obtain ⟨_, _, hr, _⟩ := Release.reset_frame i s
          rw [hr]
          exact .same _ _
      | _ => exact .same _ _
  | reboot h =>
      cases h with
      | clearTicktock =>
          rw [hflag rfl]
          exact .clear
      | ticktockSpawn => exact .start _
      | _ => exact .same _ _
  | purge h => cases h <;> exact .same _ _
  | tune h => cases h <;> exact .same _ _
  | clock => exact .same _ _

/-- A done flag with the threads that are to set it. -/
def flagLedger (flag : PoolCore → Bool) (due : Thread → Bool) : Ledger PoolCore Thread where
  held s := (flag s).toNat
  carried t := (due t).toNat

namespace Run
variable {o : Options} {G : Guard} {x : Config}

/-- The flag and the threads that are to set it stay one unit at most. -/
theorem flag_le {f : PoolCore → Bool} {due : Thread → Bool}
    (init : ∀ x, Starts o x → f x.shared = false ∧ x.threads.countP due ≤ 1)
    (call : ∀ i c, due (Call.start i c) = false)
    (step : ∀ x i a t s' t' new, G x (.step i a) → x.threads[i]? = some t →
      Thread.Step o i x.shared t s' t' new →
      FlagStep (f x.shared) (f s') (due t) (due t') (new.countP due))
    (h : Run o G x) : (f x.shared).toNat + x.threads.countP due ≤ 1 := by
  have htotal (l : List Thread) : total (flagLedger f due).carried l = l.countP due := by
    rw [← total_indicator]
    refine total_congr fun t _ => ?_
    cases hd : due t <;> simp [flagLedger, hd]
  have hle : (flagLedger f due).balance x ≤ 1 := by
    refine Ledger.balance_le ?_ ?_ ?_ h
    · intro y hy
      obtain ⟨hflag, hcount⟩ := init y hy
      rw [Ledger.balance, htotal]
      simp only [flagLedger, hflag, Bool.toNat_false]
      omega
    · intro i c
      have hc := call i c
      change ((due (c.start i)).toNat : ℤ) ≤ 0
      rw [hc]
      exact le_rfl
    · intro y i t a r _ _ hg ht hn
      have hstep := (step y i a t _ _ _ hg ht (program_step hn)).le
      rw [htotal]
      simp only [flagLedger]
      omega
  rw [Ledger.balance, htotal] at hle
  simp only [flagLedger] at hle
  omega

end Run

theorem Starts.flags {o : Options} {x : Config} (h : Starts o x) :
    (x.shared.purgeDone = false ∧ x.threads.countP Thread.purgeDue ≤ 1) ∧
      x.shared.ticktockDone = false ∧ x.threads.countP Thread.ticktockDue ≤ 1 := by
  obtain ⟨size, options, clock, h⟩ := h
  obtain ⟨_, capacity, _, _, queue, _, purge, events, latest, _, hs, ht⟩ := PoolCore.new_ok h
  rw [hs, ht]
  cases o.disablePurge with
  | true => exact ⟨⟨rfl, Nat.zero_le 1⟩, rfl, le_rfl⟩
  | false => exact ⟨⟨rfl, le_rfl⟩, rfl, le_rfl⟩

/-- In every run whose reboots find the flags they clear still set, at most one purge
thread and at most one ticktock thread are alive, and a done flag is set only when
its thread is not. -/
theorem one_background_thread {o : Options} {x : Config} (h : Run o (flagsStand o) x) :
    (x.threads.countP Thread.purgeAlive ≤ 1 ∧
      (x.shared.purgeDone = true → x.threads.countP Thread.purgeAlive = 0)) ∧
    x.threads.countP Thread.ticktockAlive ≤ 1 ∧
      (x.shared.ticktockDone = true → x.threads.countP Thread.ticktockAlive = 0) := by
  have hpurge : x.shared.purgeDone.toNat + x.threads.countP Thread.purgeDue ≤ 1 := by
    refine Run.flag_le (f := PoolCore.purgeDone) (fun y hy => hy.flags.1) ?_ ?_ h
    · intro i c
      cases c <;> rfl
    · intro y i a t s' t' new hg ht hs
      exact hs.purgeStep (hg t ht).1
  have hticktock : x.shared.ticktockDone.toNat + x.threads.countP Thread.ticktockDue ≤ 1 := by
    refine Run.flag_le (f := PoolCore.ticktockDone) (fun y hy => hy.flags.2) ?_ ?_ h
    · intro i c
      cases c <;> rfl
    · intro y i a t s' t' new hg ht hs
      exact hs.ticktockStep (hg t ht).2
  have hp : x.threads.countP Thread.purgeAlive ≤ x.threads.countP Thread.purgeDue :=
    List.countP_mono_left fun t _ => Thread.purgeDue_of_alive
  have hk : x.threads.countP Thread.ticktockAlive ≤ x.threads.countP Thread.ticktockDue :=
    List.countP_mono_left fun t _ => Thread.ticktockDue_of_alive
  refine ⟨⟨by omega, fun hd => ?_⟩, by omega, fun hd => ?_⟩
  · rw [hd, Bool.toNat_true] at hpurge
    omega
  · rw [hd, Bool.toNat_true] at hticktock
    omega

/-- A small pool with a scavenger. -/
def scavengedOptions : Options := { expiryDuration := 1 }

def scavengedPool : Config := (((PoolCore.new 1 scavengedOptions 0).get rfl).toOption.get rfl).2

theorem scavengedPool_starts : Starts scavengedOptions scavengedPool :=
  ⟨1, scavengedOptions, 0, rfl⟩

/-- A release, after which both background threads set their flags. -/
def quietMoves : List Move := .call .release :: steps 3 10 ++ steps 1 3 ++ steps 2 3

/-- A release and a reboot one after the other. -/
theorem one_background_thread_rebooted :
    ∃ x, Run scavengedOptions (flagsStand scavengedOptions) x ∧
      Thread.reboot .returned ∈ x.threads ∧
      x.threads.countP Thread.purgeAlive = 1 ∧ x.threads.countP Thread.ticktockAlive ≤ 1 := by
  obtain ⟨x, hx, hφ⟩ := Program.Reach.exists_of_run
    (P := program scavengedOptions) (I := Starts scavengedOptions)
    (G := flagsStand scavengedOptions) (x := scavengedPool)
    (m := quietMoves ++ .call .reboot :: steps 4 16)
    (φ := fun x => decide (Thread.reboot .returned ∈ x.threads ∧
      x.threads.countP Thread.purgeAlive = 1)) scavengedPool_starts (by decide)
  obtain ⟨hr, hp⟩ := of_decide_eq_true hφ
  exact ⟨x, hx, hr, hp, (one_background_thread hx).2.1⟩

/-- Two reboots wait for the same flags. The first reopens the pool, a release closes
it again, and the second finds it closed and reopens it once more: both start their
threads. -/
theorem two_background_threads :
    ∃ x, Run scavengedOptions anyMove x ∧ x.threads.countP Thread.purgeAlive = 2 ∧
      x.threads.countP Thread.ticktockAlive = 2 := by
  obtain ⟨x, hx, hφ⟩ := Program.Reach.exists_of_run
    (P := program scavengedOptions) (I := Starts scavengedOptions) (G := anyMove)
    (x := scavengedPool)
    (m := quietMoves ++ .call .reboot :: .call .reboot :: steps 4 5 ++ steps 5 5 ++ steps 4 1 ++
      .call .release :: steps 6 1 ++ steps 5 10 ++ steps 4 9)
    (φ := fun x => decide (x.threads.countP Thread.purgeAlive = 2 ∧
      x.threads.countP Thread.ticktockAlive = 2)) scavengedPool_starts (by decide)
  exact ⟨x, hx, of_decide_eq_true hφ⟩

end AntsPool
