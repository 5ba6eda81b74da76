import Katas.Weir.BaselineContract
import Katas.Weir.ChannelTransport
import Katas.Weir.PipelineTransport

/-!
# The transports of the comparison

The rings and the channels per producer keep the contract in every run: the
rings, since a ring's last event is published before the consumer looks whether
the ring is empty; the channels, since none is closed and the last pass finds
all of them empty. The baselines keep it in the runs whose operations meet
`keepsContract`.
-/
namespace Katas.Weir
open Katas.Conc

/-- Every transport keeps the contract. -/
theorem transports_meet_contract (V Tid : Type) [DecidableEq Tid] [Inhabited V] [Inhabited Tid]
    (rings : Pipeline.Config) (baseline : Baseline.Config) (channels : Channel.Config)
    (hbatch : 0 < channels.batch) :
    Contract (Pipeline.transport V Tid rings) (fun _ _ _ => True) ∧
      Contract (Baseline.transport V Tid baseline) Baseline.keepsContract ∧
      Contract (Channel.transport V Tid channels) (fun _ _ _ => True) :=
  ⟨Pipeline.meets_contract V Tid rings, Baseline.meets_contract V Tid baseline,
    Channel.meets_contract V Tid channels hbatch⟩

/-! ## A run of each

Two events are pushed; a stop is called, and returns. -/

/-- What a run is about whose stop has returned: `e` was accepted before the
stop, and is written. -/
theorem Contract.delivered {T : Transport}
    {ok : T.system.Tid → T.system.sig.Act → T.system.State → Prop} (h : Contract T ok)
    {good : System.Config T.system → System.Label T.system → Bool}
    (hg : ∀ x l, good x l = true → System.Meets ok x l) (ls : List (System.Label T.system))
    (p : System.Config T.system → Bool) (e : T.Item)
    (hp : ∀ x, p x = true → T.stopped x.state ∧ T.before x.state e)
    (hrun : (System.exec good T.system.start ls).any p = true) :
    ∃ x, System.ReachableIf ok x ∧ T.stopped x.state ∧ T.before x.state e ∧
      T.written x.state e := by
  obtain ⟨x, hx, hpx⟩ := System.reachableIf_of_test hg ls p hrun
  obtain ⟨hstop, he⟩ := hp x hpx
  exact ⟨x, hx, hstop, he, h.delivers x hx hstop e he⟩

abbrev ringsOne : Pipeline.Config := .tiny .go .bitmap

abbrev channelsOne : Channel.Config := ⟨1, 2, 4⟩

def ringsRun : List (System.Label (Pipeline.transport Nat (Fin 3) ringsOne).system) :=
  (Pipeline.does ringsOne (0 : Fin 3) .start 4 ++ Pipeline.does ringsOne 1 .register 7 ++
    Pipeline.does ringsOne 1 (.push ⟨0, 0⟩ 7) 14 ++ Pipeline.does ringsOne 1 (.push ⟨0, 0⟩ 8) 12 ++
    Pipeline.does ringsOne 0 (.stop .drain) 6 ++ Pipeline.does ringsOne 2 .consume 42 ++
    Pipeline.ops ringsOne 0 7 ++ Pipeline.ops ringsOne 2 23 ++ Pipeline.ops ringsOne 0 3).map .client

/-- The stop closes the channel; the consumer takes what it holds. -/
def chanRun : List (System.Label (Baseline.two .chan)) :=
  Baseline.does .chan 0 .start 3 ++ Baseline.does .chan 1 .register 2 ++
  Baseline.does .chan 1 (.push 7) 4 ++ Baseline.does .chan 1 (.push 8) 4 ++
  Baseline.does .chan 0 .stop 3 ++ Baseline.does .chan 2 .consume 13 ++ .replicate 3 (.step 0 0)

/-- The consumer has taken both events when `running` is cleared. -/
def mutexRun : List (System.Label (Baseline.two .mutex)) :=
  Baseline.does .mutex 0 .start 4 ++ Baseline.does .mutex 1 .register 2 ++
  Baseline.does .mutex 1 (.push 7) 4 ++ Baseline.does .mutex 1 (.push 8) 4 ++
  Baseline.does .mutex 2 .consume 6 ++ Baseline.does .mutex 0 .stop 3 ++
  .replicate 2 (.step 2 0) ++ .replicate 3 (.step 0 0)

abbrev adapted : System := (Channel.transport Nat (Fin 3) channelsOne).system

def adapterDoes (t : Fin 3) (c : Channel.Call Nat) (n : Nat) : List (System.Label adapted) :=
  .invoke t c :: .replicate n (.step t 0)

def channelsRun : List (System.Label adapted) :=
  adapterDoes 0 .start 4 ++ adapterDoes 1 .producer 10 ++ adapterDoes 1 (.push 0 7) 8 ++
  adapterDoes 1 (.push 0 8) 8 ++ adapterDoes 0 .close 3 ++ adapterDoes 2 .consume 32 ++
  .replicate 2 (.step (0 : Fin 3) 0)

theorem transports_meet_contract_runs :
    (∃ x : System.Config (Pipeline.transport Nat (Fin 3) ringsOne).system,
      System.ReachableIf (fun _ _ _ => True) x ∧ x.state.1.returned = true ∧
      (∃ l k, x.state.2 = some l ∧ ⟨⟨0, 0⟩, (1, 3), 8⟩ ∈ l k) ∧
      ⟨⟨0, 0⟩, (1, 3), 8⟩ ∈ x.state.1.sink) ∧
    (∃ x : System.Config (Baseline.two .chan), System.ReachableIf Baseline.keepsContract x ∧
      x.state.stopped = true ∧ (∃ l, x.state.before = some l ∧ ((1, 3), 8) ∈ l) ∧
      ((1, 3), 8) ∈ x.state.sink) ∧
    (∃ x : System.Config (Baseline.two .mutex), System.ReachableIf Baseline.keepsContract x ∧
      x.state.stopped = true ∧ (∃ l, x.state.before = some l ∧ ((1, 3), 8) ∈ l) ∧
      ((1, 3), 8) ∈ x.state.sink) ∧
    ∃ x : System.Config (Channel.transport Nat (Fin 3) channelsOne).system,
      System.ReachableIf (fun _ _ _ => True) x ∧ x.state.2.stopped = true ∧
      (∃ l, x.state.2.before = some l ∧ ((1, 3), 8) ∈ l) ∧ ((1, 3), 8) ∈ x.state.1.sink := by
  obtain ⟨hrings, hchan, hchannels⟩ := transports_meet_contract Nat (Fin 3) ringsOne
    (.standard .chan) channelsOne (by decide)
  obtain ⟨-, hmutex, -⟩ := transports_meet_contract Nat (Fin 3) ringsOne (.standard .mutex)
    channelsOne (by decide)
  have hall : ∀ {Y : System} (x : System.Config Y) (l : System.Label Y), true = true →
      System.Meets (fun _ _ _ => True) x l := fun x l _ => System.meets_true x l
  have hkeeps : ∀ kind, ∀ (x : System.Config (Baseline.two kind)) (l : System.Label _),
      System.meets Baseline.keepsContract x l = true → System.Meets Baseline.keepsContract x l :=
    fun _ => System.of_meets
  refine ⟨hrings.delivered hall ringsRun (fun x => x.state.1.returned &&
      decide (x.state.2.map (· 0) = some [⟨⟨0, 0⟩, (1, 2), 7⟩, ⟨⟨0, 0⟩, (1, 3), 8⟩])) _
        (fun x hp => ?_) (by decide +kernel),
    hchan.delivered (hkeeps .chan) chanRun (fun x => x.state.stopped &&
      decide (x.state.before = some [((1, 2), 7), ((1, 3), 8)])) _ (fun x hp => ?_)
      (by decide +kernel),
    hmutex.delivered (hkeeps .mutex) mutexRun (fun x => x.state.stopped &&
      decide (x.state.before = some [((1, 2), 7), ((1, 3), 8)])) _ (fun x hp => ?_)
      (by decide +kernel),
    hchannels.delivered hall channelsRun (fun x => x.state.2.stopped &&
      decide (x.state.2.before = some [((1, 2), 7), ((1, 3), 8)])) _ (fun x hp => ?_)
      (by decide +kernel)⟩
  all_goals rw [Bool.and_eq_true, decide_eq_true_eq] at hp
  · obtain ⟨l, hl, hk⟩ := Option.map_eq_some_iff.mp hp.2
    exact ⟨hp.1, l, 0, hl, by rw [hk]; simp⟩
  · exact ⟨hp.1, _, hp.2, by simp⟩
  · exact ⟨hp.1, _, hp.2, by simp⟩
  · exact ⟨hp.1, _, hp.2, by simp⟩

end Katas.Weir
