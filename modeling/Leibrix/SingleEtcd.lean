import Leibrix.NodeServer

/-! How many etcd servers a node runs. `Start` reads the state, and only when its server is
ready adds to it; the calls must not overlap. -/
namespace Leibrix.NodeServer
open Leibrix.Transition

section Steps
variable {υ : Type} {lib : UrlLib υ} {config : Config} {s t : Sys υ}

structure Orderly (lib : UrlLib υ) (config : Config) (s : Sys υ) : Prop where
  -- the servers, the state and the calls, as long as calls of `Start` do not overlap
  single : ∀ c c', (s.calls c).starts = true → (s.calls c').starts = true → c = c'
  init : ∀ c, (s.calls c).starts = true → s.serverState = serverStateInit
  begun : ∀ c, (s.calls c).stops = true → s.serverState ≠ serverStateInit
  states : s.serverState = serverStateInit ∨ s.serverState = serverStateReady ∨
    s.serverState = serverStateStopped
  embedded : s.serverState ≠ serverStateInit → ∃ e, s.embedEtcd = some e
  known : ∀ e, s.embedEtcd = some e → e < s.etcds.length
  fresh : ∀ e, s.etcds.length ≤ e → s.closed e = false
  inHand : ∀ c e, (s.calls c).etcd = some e → s.Running e
  adding : ∀ c e, s.calls c = .adding e → s.embedEtcd = some e
  running : ∀ e, s.Running e → (∃ c, (s.calls c).etcd = some e) ∨
    s.serverState = serverStateReady ∧ s.embedEtcd = some e
  -- what is ready runs until a `Stop` closes it
  ready : s.serverState = serverStateReady → ∀ e, s.embedEtcd = some e → s.closed e = true →
    ∃ c, s.calls c = .stopping
  stopping : ∀ c, s.calls c = .stopping → ∀ e, s.embedEtcd = some e → s.closed e = true
  configured : ∀ c cfg, s.calls c = .configured cfg → Proper lib config cfg
  configs : ∀ cfg ∈ s.etcds, Proper lib config cfg

theorem orderly_start : Orderly lib config (Sys.start υ) := by
  constructor <;> simp [Sys.start, Call.starts, Call.stops, Call.etcd, Sys.Running]

theorem starts_of_etcd {call : Call υ} {e : Nat} (h : call.etcd = some e) : call.starts = true := by
  cases call <;> first | rfl | cases h

@[simp] theorem calls_goto_self (c : Nat) (call : Call υ) : (s.goto c call).calls c = call := by
  simp [Sys.goto]

theorem calls_goto_of_ne {c c' : Nat} (h : c' ≠ c) (call : Call υ) :
    (s.goto c call).calls c' = s.calls c' := by
  simp [Sys.goto, Function.update_of_ne h]

theorem forall_goto {c : Nat} {call : Call υ} {P : Nat → Call υ → Prop} (hc : P c call)
    (h : ∀ c', c' ≠ c → P c' (s.calls c')) (c' : Nat) : P c' ((s.goto c call).calls c') := by
  by_cases he : c' = c
  · subst he
    rw [calls_goto_self]
    exact hc
  · rw [calls_goto_of_ne he]
    exact h c' he

theorem Orderly.not_starts {c : Nat} (h : Orderly lib config s)
    (hs : s.serverState ≠ serverStateInit) : (s.calls c).starts = false := by
  by_contra hc
  exact hs (h.init c (by simpa using hc))

theorem Orderly.start {c : Nat} (h : Orderly lib config s)
    (hs : s.serverState = serverStateInit) (ha : ∀ c', (s.calls c').starts = false) :
    Orderly lib config (s.goto c .building) := by
  have honly : ∀ c', ((s.goto c .building).calls c').starts = true → c' = c :=
    forall_goto (P := fun c' call => call.starts = true → c' = c) (fun _ => rfl)
      fun c' _ hst => by simp [ha] at hst
  refine ⟨fun c₁ c₂ h₁ h₂ => (honly c₁ h₁).trans (honly c₂ h₂).symm, fun _ _ => hs, ?_, h.states,
    h.embedded, h.known, h.fresh, ?_, ?_, ?_, ?_, ?_, ?_, h.configs⟩
  · exact forall_goto (P := fun _ call => call.stops = true → _) (by simp [Call.stops])
      fun c' _ => h.begun c'
  · exact forall_goto (P := fun _ call => ∀ e, call.etcd = some e → s.Running e)
      (by simp [Call.etcd]) fun c' _ => h.inHand c'
  · exact forall_goto (P := fun _ call => ∀ e, call = .adding e → s.embedEtcd = some e)
      (by simp) fun c' _ => h.adding c'
  · intro e he
    obtain ⟨c', hc'⟩ | hr := h.running e he
    · have hst := starts_of_etcd hc'
      simp [ha] at hst
    · exact .inr hr
  · intro hr
    exact absurd (hs.symm.trans hr) (by decide)
  · exact forall_goto (P := fun _ call => call = .stopping → ∀ e, s.embedEtcd = some e →
      s.closed e = true) (by simp) fun c' _ => h.stopping c'
  · exact forall_goto (P := fun _ call => ∀ cfg, call = .configured cfg → Proper lib config cfg)
      (by simp) fun c' _ => h.configured c'

theorem Orderly.goto {c : Nat} {call : Call υ} (h : Orderly lib config s)
    (hs : call.starts = true → (s.calls c).starts = true)
    (he : ∀ e, call.etcd = some e → (s.calls c).etcd = some e)
    (hr : (s.calls c).etcd = none ∨ (s.calls c).etcd = call.etcd)
    (ht : call.stops = true → s.serverState = serverStateReady ∨ (s.calls c).stops = true)
    (hn : ∀ e, call ≠ .adding e) (hp : call ≠ .stopping) (ho : s.calls c ≠ .stopping)
    (hcfg : ∀ cfg, call = .configured cfg → Proper lib config cfg) :
    Orderly lib config (s.goto c call) := by
  have hstarts : ∀ c', ((s.goto c call).calls c').starts = true → (s.calls c').starts = true :=
    forall_goto (P := fun c' call => call.starts = true → (s.calls c').starts = true) hs
      fun _ _ hst => hst
  refine ⟨fun c₁ c₂ h₁ h₂ => h.single c₁ c₂ (hstarts c₁ h₁) (hstarts c₂ h₂),
    fun c' hst => h.init c' (hstarts c' hst), ?_, h.states, h.embedded, h.known, h.fresh, ?_, ?_,
    ?_, ?_, ?_, ?_, h.configs⟩
  · refine forall_goto (P := fun _ call => call.stops = true → s.serverState ≠ serverStateInit)
      (fun hst => ?_) fun c' _ => h.begun c'
    obtain hready | hold := ht hst
    · rw [hready]
      decide
    · exact h.begun c hold
  · exact forall_goto (P := fun _ call => ∀ e, call.etcd = some e → s.Running e)
      (fun e hce => h.inHand c e (he e hce)) fun c' _ => h.inHand c'
  · exact forall_goto (P := fun _ call => ∀ e, call = .adding e → s.embedEtcd = some e)
      (fun e hce => absurd hce (hn e)) fun c' _ => h.adding c'
  · intro e hrun
    obtain ⟨c', hc'⟩ | hready := h.running e hrun
    · refine .inl ⟨c', ?_⟩
      by_cases heq : c' = c
      · subst heq
        rw [calls_goto_self]
        obtain hnone | hsame := hr
        · cases hnone.symm.trans hc'
        · exact hsame.symm.trans hc'
      · rw [calls_goto_of_ne heq]
        exact hc'
    · exact .inr hready
  · intro hready e hemb hclosed
    obtain ⟨c', hc'⟩ := h.ready hready e hemb hclosed
    have hne : c' ≠ c := by
      rintro rfl
      exact ho hc'
    exact ⟨c', (calls_goto_of_ne hne call).trans hc'⟩
  · exact forall_goto (P := fun _ call => call = .stopping → ∀ e, s.embedEtcd = some e →
      s.closed e = true) (fun hst => absurd hst hp) fun c' _ => h.stopping c'
  · exact forall_goto (P := fun _ call => ∀ cfg, call = .configured cfg → Proper lib config cfg)
      hcfg fun c' _ => h.configured c'

/-- The only call that starts, and the server it has started. -/
theorem Orderly.only_etcd {c c' e : Nat} (h : Orderly lib config s) (hc : (s.calls c).starts = true)
    (he : (s.calls c').etcd = some e) : c' = c :=
  h.single c' c (starts_of_etcd he) hc

theorem Orderly.startEtcd {c : Nat} {cfg : EtcdConfig υ} (h : Orderly lib config s)
    (hc : s.calls c = .configured cfg) :
    Orderly lib config ({ s with etcds := s.etcds ++ [cfg] }.goto c (.waiting s.etcds.length)) := by
  have hst : (s.calls c).starts = true := by rw [hc]; rfl
  have hinit := h.init c hst
  have honly : ∀ c' e, (s.calls c').etcd = some e → False := by
    intro c' e he
    obtain rfl := h.only_etcd hst he
    rw [hc] at he
    cases he
  have hnone : ∀ e, ¬s.Running e := by
    intro e hrun
    obtain ⟨c', he⟩ | ⟨hready, -⟩ := h.running e hrun
    · exact honly c' e he
    · exact absurd (hinit.symm.trans hready) (by decide)
  have hstarts : ∀ c', (({ s with etcds := s.etcds ++ [cfg] }.goto c
      (.waiting s.etcds.length)).calls c').starts = true → (s.calls c').starts = true :=
    forall_goto (P := fun c' call => call.starts = true → (s.calls c').starts = true)
      (fun _ => hst) fun _ _ hs => hs
  refine ⟨fun c₁ c₂ h₁ h₂ => h.single c₁ c₂ (hstarts c₁ h₁) (hstarts c₂ h₂),
    fun c' hs => h.init c' (hstarts c' hs), ?_, h.states, h.embedded, ?_, ?_, ?_, ?_, ?_, ?_, ?_,
    ?_, ?_⟩
  · exact forall_goto (P := fun _ call => call.stops = true → s.serverState ≠ serverStateInit)
      (by simp [Call.stops]) fun c' _ => h.begun c'
  · intro e he
    simp only [Sys.goto, List.length_append]
    exact Nat.lt_add_right _ (h.known e he)
  · intro e he
    simp only [Sys.goto, List.length_append] at he
    exact h.fresh e (Nat.le_of_add_right_le he)
  · refine forall_goto (P := fun _ call => ∀ e, call.etcd = some e → Sys.Running _ e) ?_ ?_
    · intro e he
      obtain rfl : s.etcds.length = e := Option.some.inj he
      exact ⟨by simp [Sys.goto], h.fresh _ (Nat.le_refl _)⟩
    · intro c' _ e he
      exact (honly c' e he).elim
  · exact forall_goto (P := fun _ call => ∀ e, call = .adding e → s.embedEtcd = some e)
      (by simp) fun c' _ => h.adding c'
  · intro e hrun
    refine .inl ⟨c, ?_⟩
    rw [calls_goto_self]
    have hlt : ¬e < s.etcds.length := fun hlt => hnone e ⟨hlt, hrun.2⟩
    have hle : e < s.etcds.length + 1 := by simpa [Sys.goto] using hrun.1
    exact congrArg some (Nat.le_antisymm (Nat.le_of_not_lt hlt) (Nat.le_of_lt_succ hle))
  · intro hready
    exact absurd (hinit.symm.trans hready) (by decide)
  · exact forall_goto (P := fun _ call => call = .stopping → ∀ e, s.embedEtcd = some e →
      s.closed e = true) (by simp) fun c' _ => h.stopping c'
  · exact forall_goto (P := fun _ call => ∀ cfg, call = .configured cfg → Proper lib config cfg)
      (by simp) fun c' _ => h.configured c'
  · intro cfg' hm
    cases List.mem_append.mp hm with
    | inl hm => exact h.configs cfg' hm
    | inr hm => exact List.mem_singleton.mp hm ▸ h.configured c cfg hc

/-- While a call starts, every other one is before or behind its work. -/
theorem Orderly.others {c c' : Nat} (h : Orderly lib config s) (hc : (s.calls c).starts = true)
    (hne : c' ≠ c) : (s.calls c').starts = false ∧ (s.calls c').stops = false := by
  constructor
  · by_contra hst
    exact hne (h.single c' c (by simpa using hst) hc)
  · by_contra hst
    exact h.begun c' (by simpa using hst) (h.init c hc)

theorem Orderly.setEmbedEtcd {c e : Nat} (h : Orderly lib config s)
    (hc : s.calls c = .publishing e) :
    Orderly lib config ({ s with embedEtcd := some e }.goto c (.adding e)) := by
  have hst : (s.calls c).starts = true := by rw [hc]; rfl
  have hinit := h.init c hst
  have hrun : s.Running e := h.inHand c e (by rw [hc]; rfl)
  have honly : ∀ c', (({ s with embedEtcd := some e }.goto c (.adding e)).calls c').starts = true →
      c' = c := by
    refine forall_goto (P := fun c' call => call.starts = true → c' = c) (fun _ => rfl) ?_
    intro c' hne hs
    exact h.single c' c hs hst
  have hquiet : ∀ c', (({ s with embedEtcd := some e }.goto c (.adding e)).calls c').stops =
      false := by
    refine forall_goto (P := fun _ call => call.stops = false) rfl fun c' hne => ?_
    exact (h.others hst hne).2
  refine ⟨fun c₁ c₂ h₁ h₂ => (honly c₁ h₁).trans (honly c₂ h₂).symm, fun _ _ => hinit, ?_, h.states,
    fun _ => ⟨e, rfl⟩, ?_, h.fresh, ?_, ?_, ?_, ?_, ?_, ?_, h.configs⟩
  · intro c' hs
    rw [hquiet c'] at hs
    cases hs
  · intro e' he
    cases he
    exact hrun.1
  · refine forall_goto (P := fun _ call => ∀ e, call.etcd = some e → s.Running e) ?_ ?_
    · intro e' he
      cases he
      exact hrun
    · exact fun c' _ => h.inHand c'
  · refine forall_goto (P := fun _ call => ∀ e', call = .adding e' → some e = some e') ?_ ?_
    · intro e' he
      cases he
      rfl
    · intro c' hne e' he
      have hs := (h.others hst hne).1
      rw [he] at hs
      cases hs
  · intro e' hrun'
    obtain ⟨c', he⟩ | ⟨hready, -⟩ := h.running e' hrun'
    · obtain rfl := h.only_etcd hst he
      rw [hc] at he
      exact .inl ⟨c', by rw [calls_goto_self]; exact he⟩
    · exact absurd (hinit.symm.trans hready) (by decide)
  · intro hready
    exact absurd (hinit.symm.trans hready) (by decide)
  · intro c' hs
    have hstop := hquiet c'
    rw [hs] at hstop
    cases hstop
  · exact forall_goto (P := fun _ call => ∀ cfg, call = .configured cfg → Proper lib config cfg)
      (by simp) fun c' _ => h.configured c'

theorem orderly_of_quiet (hq : ∀ c, (s.calls c).starts = false)
    (hbegun : ∀ c, (s.calls c).stops = true → s.serverState ≠ serverStateInit)
    (hstates : s.serverState = serverStateInit ∨ s.serverState = serverStateReady ∨
      s.serverState = serverStateStopped)
    (hemb : s.serverState ≠ serverStateInit → ∃ e, s.embedEtcd = some e)
    (hknown : ∀ e, s.embedEtcd = some e → e < s.etcds.length)
    (hfresh : ∀ e, s.etcds.length ≤ e → s.closed e = false)
    (hrun : ∀ e, s.Running e → s.serverState = serverStateReady ∧ s.embedEtcd = some e)
    (hready : s.serverState = serverStateReady → ∀ e, s.embedEtcd = some e → s.closed e = true →
      ∃ c, s.calls c = .stopping)
    (hstop : ∀ c, s.calls c = .stopping → ∀ e, s.embedEtcd = some e → s.closed e = true)
    (hcfgs : ∀ cfg ∈ s.etcds, Proper lib config cfg) : Orderly lib config s := by
  have hnot : ∀ {c : Nat} {call : Call υ} {P : Prop}, s.calls c = call → call.starts = true →
      P := by
    intro c call P hc hs
    rw [← hc, hq c] at hs
    cases hs
  refine ⟨fun c _ hs _ => hnot rfl hs, fun c hs => hnot rfl hs, hbegun, hstates, hemb, hknown,
    hfresh, fun c e he => hnot rfl (starts_of_etcd he), fun c e hc => hnot hc rfl,
    fun e he => .inr (hrun e he), hready, hstop, fun c cfg hc => hnot hc rfl, hcfgs⟩

theorem Orderly.addState {c e : Nat} (h : Orderly lib config s) (hc : s.calls c = .adding e) :
    Orderly lib config
      ({ s with serverState := s.serverState + serverStateReady }.goto c (.returned none)) := by
  have hst : (s.calls c).starts = true := by rw [hc]; rfl
  have hsum : s.serverState + serverStateReady = serverStateReady := by
    rw [h.init c hst]
    rfl
  have hemb := h.adding c e hc
  have hrun : s.Running e := h.inHand c e (by rw [hc]; rfl)
  rw [hsum]
  refine orderly_of_quiet ?_ (fun _ _ => (by decide : serverStateReady ≠ serverStateInit))
    (.inr (.inl rfl)) (fun _ => ⟨e, hemb⟩) h.known h.fresh ?_ ?_ ?_ h.configs
  · exact forall_goto (P := fun _ call => call.starts = false) rfl fun c' hne =>
      (h.others hst hne).1
  · intro e' hrun'
    obtain ⟨c', he⟩ | ⟨-, he⟩ := h.running e' hrun'
    · obtain rfl := h.only_etcd hst he
      rw [hc] at he
      exact ⟨rfl, hemb.trans he⟩
    · exact ⟨rfl, he⟩
  · intro _ e' he hclosed
    obtain rfl : e = e' := Option.some.inj (hemb.symm.trans he)
    cases hrun.2.symm.trans hclosed
  · refine forall_goto (P := fun _ call => call = .stopping → ∀ e, s.embedEtcd = some e →
      s.closed e = true) (by simp) fun c' _ => h.stopping c'

theorem Orderly.fresh_close {e : Nat} (h : Orderly lib config s) (he : e < s.etcds.length) :
    ∀ e', s.etcds.length ≤ e' → (s.close e).closed e' = false := by
  intro e' hle
  have hne : e' ≠ e := fun heq => absurd he (Nat.not_lt.mpr (heq ▸ hle))
  simpa [Sys.close, Function.update_of_ne hne] using h.fresh e' hle

theorem running_close {c e e' : Nat} {call : Call υ} (h : ((s.close e).goto c call).Running e') :
    e' ≠ e ∧ s.Running e' := by
  by_cases heq : e' = e
  · subst heq
    simp [Sys.Running, Sys.goto, Sys.close] at h
  · exact ⟨heq, h.1, by simpa [Sys.goto, Sys.close, Function.update_of_ne heq] using h.2⟩

theorem Orderly.cancelStart {c e : Nat} {err : String} (h : Orderly lib config s)
    (hc : s.calls c = .cancelling e) :
    Orderly lib config ((s.close e).goto c (.returned (some err))) := by
  have hst : (s.calls c).starts = true := by rw [hc]; rfl
  have hinit := h.init c hst
  have hrun : s.Running e := h.inHand c e (by rw [hc]; rfl)
  have hquiet : ∀ c', (((s.close e).goto c (.returned (some err))).calls c').starts = false ∧
      (((s.close e).goto c (.returned (some err))).calls c').stops = false :=
    forall_goto (P := fun _ call => call.starts = false ∧ call.stops = false) ⟨rfl, rfl⟩
      fun c' hne => h.others hst hne
  refine orderly_of_quiet (fun c' => (hquiet c').1) ?_ h.states h.embedded h.known
    (h.fresh_close hrun.1) ?_ ?_ ?_ h.configs
  · intro c' hs
    rw [(hquiet c').2] at hs
    cases hs
  · intro e' hrun'
    obtain ⟨hne, hrun'⟩ := running_close hrun'
    obtain ⟨c', he⟩ | ⟨hready, -⟩ := h.running e' hrun'
    · obtain rfl := h.only_etcd hst he
      rw [hc] at he
      exact absurd (Option.some.inj he).symm hne
    · exact absurd (hinit.symm.trans hready) (by decide)
  · intro hready
    exact absurd (hinit.symm.trans hready) (by decide)
  · intro c' hs
    have hstop := (hquiet c').2
    rw [hs] at hstop
    cases hstop

/-- The server of a `Stop` is the only one there is. -/
theorem Orderly.close {c e : Nat} (h : Orderly lib config s) (hc : s.calls c = .closing)
    (he : s.embedEtcd = some e) : Orderly lib config ((s.close e).goto c .stopping) := by
  have hne := h.begun c (by rw [hc]; rfl)
  have hclosed : (s.close e).closed e = true := by simp [Sys.close]
  refine orderly_of_quiet ?_ (fun _ _ => hne) h.states h.embedded h.known
    (h.fresh_close (h.known e he)) ?_ ?_ ?_ h.configs
  · exact forall_goto (P := fun _ call => call.starts = false) rfl fun c' _ => h.not_starts hne
  · intro e' hrun
    obtain ⟨hother, hrun⟩ := running_close hrun
    obtain ⟨c', hc'⟩ | ⟨-, he'⟩ := h.running e' hrun
    · exact absurd (h.init c' (starts_of_etcd hc')) hne
    · exact absurd (Option.some.inj (he'.symm.trans he)) hother
  · intro _ _ _ _
    exact ⟨c, calls_goto_self c _⟩
  · intro c' _ e' he'
    obtain rfl : e = e' := Option.some.inj (he.symm.trans he')
    exact hclosed

theorem Orderly.storeStopped {c : Nat} (h : Orderly lib config s) (hc : s.calls c = .stopping) :
    Orderly lib config ({ s with serverState := serverStateStopped }.goto c (.returned none)) := by
  have hne := h.begun c (by rw [hc]; rfl)
  refine orderly_of_quiet ?_ (fun _ _ => (by decide : serverStateStopped ≠ serverStateInit))
    (.inr (.inr rfl)) (fun _ => h.embedded hne) h.known h.fresh ?_ ?_ ?_ h.configs
  · exact forall_goto (P := fun _ call => call.starts = false) rfl fun c' _ => h.not_starts hne
  · intro e hrun
    obtain ⟨c', hc'⟩ | ⟨-, he⟩ := h.running e hrun
    · exact absurd (h.init c' (starts_of_etcd hc')) hne
    · cases hrun.2.symm.trans (h.stopping c hc e he)
  · intro hready
    exact absurd hready (by decide : serverStateStopped ≠ serverStateReady)
  · exact forall_goto (P := fun _ call => call = .stopping → ∀ e, s.embedEtcd = some e →
      s.closed e = true) (by simp) fun c' _ => h.stopping c'

theorem Orderly.step {l : Label} (h : Orderly lib config s) (ha : Apart s l)
    (hs : step lib config s l = some t) : Orderly lib config t := by
  cases moves_of_step hs with
  | start c _ hinit => exact h.start hinit (ha rfl)
  | goto _ c call hst he hr ht hn hp ho hcfg => exact h.goto hst he hr ht hn hp ho hcfg
  | startEtcd c cfg hc => exact h.startEtcd hc
  | setEmbedEtcd c e hc => exact h.setEmbedEtcd hc
  | addState c e hc => exact h.addState hc
  | cancelStart c e err hc => exact h.cancelStart hc
  | inconsistent c hc he =>
    obtain ⟨e, hsome⟩ := h.embedded (h.begun c (by rw [hc]; rfl))
    cases he.symm.trans hsome
  | close c e hc he => exact h.close hc he
  | storeStopped c hc => exact h.storeStopped hc

theorem getServerState_ready : getServerState s = "ready" ↔ s.serverState = serverStateReady := by
  constructor
  · intro h
    by_contra hne
    simp only [getServerState, hne, if_false] at h
    split_ifs at h <;> exact absurd h (by decide)
  · intro h
    rw [getServerState, h]
    rfl

theorem getServerState_stopped :
    getServerState s = "stopped" ↔ s.serverState = serverStateStopped := by
  constructor
  · intro h
    by_contra hne
    simp only [getServerState, hne, if_false] at h
    split_ifs at h <;> exact absurd h (by decide)
  · intro h
    rw [getServerState, h]
    rfl

/-- As long as calls of `Start` do not overlap, whatever calls of `Stop` there are: at most
one etcd server runs, with a proper configuration; it is the one of the `Start` under way or,
in the state "ready", `embedEtcd`. In the state "ready" there is an `embedEtcd`, and it runs
unless a `Stop` has closed it and is about to store the state; in the state "stopped" none
runs. -/
theorem single_etcd (h : Reach (Fires (step lib config)) Apart (Sys.start υ) s) :
    (∀ e e', s.Running e → s.Running e' → e = e') ∧
      (∀ e, s.Running e → (∃ c, (s.calls c).etcd = some e) ∨
        getServerState s = "ready" ∧ s.embedEtcd = some e) ∧
      (getServerState s = "ready" → ∃ e, s.embedEtcd = some e ∧
        (s.Running e ∨ ∃ c, s.calls c = .stopping)) ∧
      (getServerState s = "stopped" → ∀ e, ¬s.Running e) ∧
      ∀ cfg ∈ s.etcds, Proper lib config cfg := by
  have hi : Orderly lib config s :=
    h.invariant (I := Orderly lib config) orderly_start fun _ _ _ hi ha hs => hi.step ha hs
  rw [getServerState_ready, getServerState_stopped]
  refine ⟨fun e e' he he' => ?_, hi.running, fun hready => ?_, fun hstopped e he => ?_,
    hi.configs⟩
  · obtain ⟨c, hc⟩ | ⟨hready, hemb⟩ := hi.running e he
    · obtain ⟨c', hc'⟩ | ⟨hready', -⟩ := hi.running e' he'
      · obtain rfl := hi.only_etcd (starts_of_etcd hc) hc'
        exact Option.some.inj (hc.symm.trans hc')
      · exact absurd ((hi.init c (starts_of_etcd hc)).symm.trans hready') (by decide)
    · obtain ⟨c', hc'⟩ | ⟨-, hemb'⟩ := hi.running e' he'
      · exact absurd ((hi.init c' (starts_of_etcd hc')).symm.trans hready) (by decide)
      · exact Option.some.inj (hemb.symm.trans hemb')
  · obtain ⟨e, he⟩ := hi.embedded (by rw [hready]; decide)
    refine ⟨e, he, ?_⟩
    cases hclosed : s.closed e with
    | false => exact .inl ⟨hi.known e he, hclosed⟩
    | true => exact .inr (hi.ready hready e he hclosed)
  · obtain ⟨c, hc⟩ | ⟨hready, -⟩ := hi.running e he
    · exact absurd ((hi.init c (starts_of_etcd hc)).symm.trans hstopped) (by decide)
    · exact absurd (hready.symm.trans hstopped) (by decide)

end Steps

def plainUrls : UrlLib String := ⟨.ok, fun s => "\"" ++ s ++ "\""⟩

def nodeConfig : Config where
  nodeName := "node-1"
  dataDir := ["data"]
  initialClusterToken := "leibrix"
  initialCluster := "node-1=http://127.0.0.1:2380"
  listenClientUrls := ["http://127.0.0.1:2379"]
  advertisePeerUrls := ["http://127.0.0.1:2380"]
  heartbeatMs := 0
  electionMs := 0
  logLevel := "info"

def emptyTree : FileTree.Node := .dir true true [("data", .dir true true [])]

def startCall (c : Nat) : List Label :=
  [.buildEtcdConfig c emptyTree, .startEtcd c, .readyNotify c, .setEmbedEtcd c, .addState c]

def stopCall (c : Nat) : List Label := [.stop c, .check c, .close c, .storeStopped c]

theorem reach_of_first {ls : List Label} {s : Sys String}
    (hs : replay (guarded (fun _ l => !l.begins) (step plainUrls nodeConfig)) ls
      ((Sys.start String).goto 0 .building) = some s) :
    Reach (Fires (step plainUrls nodeConfig)) Apart (Sys.start String) s := by
  have hfirst : Reach (Fires (step plainUrls nodeConfig)) Apart (Sys.start String)
      ((Sys.start String).goto 0 .building) :=
    Reach.refl.tail (a := .start 0) (fun _ _ => rfl) rfl
  refine hfirst.trans (Reach.of_guarded (fun s l hp hl => ?_) (reach_of_replay hs))
  simp [hl] at hp

/-- The server still runs when a `Stop` has passed its checks, and no longer when it has
returned. -/
theorem single_etcd_stopped :
    (∃ s : Sys String, Reach (Fires (step plainUrls nodeConfig)) Apart (Sys.start String) s ∧
      s.calls 1 = .closing ∧ ∃ e, s.embedEtcd = some e ∧
        (s.Running e ∨ ∃ c, s.calls c = .stopping)) ∧
    ∃ s : Sys String, Reach (Fires (step plainUrls nodeConfig)) Apart (Sys.start String) s ∧
      s.etcds.length = 1 ∧ ∀ e, ¬s.Running e := by
  constructor
  · obtain ⟨s, hs, hc, hstate⟩ : ∃ s, replay (guarded (fun _ l => !l.begins)
        (step plainUrls nodeConfig)) (startCall 0 ++ [.stop 1, .check 1])
        ((Sys.start String).goto 0 .building) = some s ∧ s.calls 1 = .closing ∧
        getServerState s = "ready" := ⟨_, rfl, rfl, rfl⟩
    have hreach := reach_of_first hs
    exact ⟨s, hreach, hc, (single_etcd hreach).2.2.1 hstate⟩
  · obtain ⟨s, hs, hlen, hstate⟩ : ∃ s, replay (guarded (fun _ l => !l.begins)
        (step plainUrls nodeConfig)) (startCall 0 ++ stopCall 1)
        ((Sys.start String).goto 0 .building) = some s ∧ s.etcds.length = 1 ∧
        getServerState s = "stopped" := ⟨_, rfl, rfl, rfl⟩
    have hreach := reach_of_first hs
    exact ⟨s, hreach, hlen, (single_etcd hreach).2.2.2.1 hstate⟩

-- Two calls that both find the state "init" add to it twice: it is "stopped" with two servers
-- running, and `Stop` leaves them as they are.
example : ∃ s : Sys String, Reach (Fires (step plainUrls nodeConfig)) anyStep (Sys.start String) s ∧
    getServerState s = "stopped" ∧ s.Running 0 ∧ s.Running 1 ∧ s.calls 2 = .returned none := by
  obtain ⟨s, hs, hp⟩ : ∃ s, replay (step plainUrls nodeConfig)
      ([.start 0, .start 1] ++ startCall 0 ++ startCall 1 ++ [.stop 2]) (Sys.start String) =
        some s ∧ getServerState s = "stopped" ∧ (0 < s.etcds.length ∧ s.closed 0 = false) ∧
        (1 < s.etcds.length ∧ s.closed 1 = false) ∧ s.calls 2 = .returned none :=
    ⟨_, rfl, rfl, ⟨by decide, rfl⟩, ⟨by decide, rfl⟩, rfl⟩
  exact ⟨s, reach_of_replay hs, hp⟩

end Leibrix.NodeServer
