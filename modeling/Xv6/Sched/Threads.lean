import Xv6.Sched.Invariant

/-!
# Kernel threads keep the invariant

Every instruction is legal, so it is enough to look at each kind of legal instruction once.
-/

namespace Xv6.Sched

open Transition Process Function

section Thread

variable {m m' m₁ : Machine} {c p q : Nat} {top : Frame} {fs : List Frame} {next : Option Frame}
variable {x : Lock}

/-! ### Locks -/

theorem held_exec (hmode : (m.cpu c).mode = .exec p) (hst : m.stack p = top :: fs) :
    m.held c = top.locks ++ locks fs := by
  unfold Machine.held
  rw [hmode]
  dsimp only
  rw [hst]
  rfl

/-- The locks of a CPU that holds `L`, in `m`. -/
def Holds (lock : Lock → Option Nat) (c : Nat) (L : List Lock) : Prop :=
  L.Nodup ∧ ∀ x ∈ L, lock x = some c

theorem Holds.perm {lock : Lock → Option Nat} {L L' : List Lock} (h : Holds lock c L)
    (hp : L'.Perm L) : Holds lock c L' :=
  ⟨hp.nodup_iff.mpr h.1, fun x hx => h.2 x (hp.mem_iff.mp hx)⟩

theorem Holds.acquire {lock : Lock → Option Nat} {L L' : List Lock} (h : Holds lock c L)
    (hx : lock x = none) (hp : L'.Perm (x :: L)) :
    Holds (update lock x (some c)) c L' := by
  have hnot : x ∉ L := fun hmem => by
    rw [h.2 x hmem] at hx
    cases hx
  refine Holds.perm ⟨List.nodup_cons.mpr ⟨hnot, h.1⟩, fun y hy => ?_⟩ hp
  rcases List.mem_cons.mp hy with rfl | hyL
  · exact update_self ..
  · have hyx : y ≠ x := by
      rintro rfl
      exact hnot hyL
    rw [update_of_ne hyx]
    exact h.2 y hyL

theorem Holds.release {lock : Lock → Option Nat} {L L' : List Lock} (h : Holds lock c L)
    (hp : L.Perm (x :: L')) : Holds (update lock x none) c L' := by
  obtain ⟨hnodup, hall⟩ := h.perm hp.symm
  obtain ⟨hnot, hnodup'⟩ := List.nodup_cons.mp hnodup
  refine ⟨hnodup', fun y hy => ?_⟩
  have hyx : y ≠ x := by
    rintro rfl
    exact hnot hy
  rw [update_of_ne hyx]
  exact hall y (List.mem_cons_of_mem _ hy)

/-! ### Stacks -/

theorem StacksOk.of_sublist (h : StacksOk m) (next : Option Frame)
    (hself : ∀ g ∈ next, g.self = none ∨ g.self = some p)
    (hst : m.stack p = top :: fs)
    (hstack : m'.stack = update m.stack p (next.toList ++ fs))
    (hsub : (nextNewborn next).toList.Sublist top.newborn.toList)
    (hused : ∀ q, ∀ np ∈ newborns (m'.stack q), (m.proc np).state = .USED →
      (m'.proc np).state = .USED) : StacksOk m' := by
  have hp : m'.stack p = next.toList ++ fs := by rw [hstack, update_self]
  have hq : ∀ {q : Nat}, q ≠ p → m'.stack q = m.stack q := fun hne => by
    rw [hstack, update_of_ne hne]
  have hnew : ∀ q, (newborns (m'.stack q)).Sublist (newborns (m.stack q)) := fun q => by
    by_cases hqp : q = p
    · subst hqp
      rw [hp, hst, newborns_append]
      have htop : newborns (top :: fs) = top.newborn.toList ++ newborns fs := newborns_append (some top) fs
      rw [htop]
      exact hsub.append (List.Sublist.refl _)
    · rw [hq hqp]
  refine ⟨fun q f hf => ?_, fun q f hf => ?_, fun q np hnp => ?_, fun q r np hnq hnr => ?_,
    fun q => (hnew q).nodup (h.single q)⟩
  · by_cases hqp : q = p
    · subst hqp
      rw [hp, List.mem_append, Option.mem_toList] at hf
      rcases hf with hf | hf
      · exact hself f hf
      · exact h.self q f (by rw [hst]; exact List.mem_cons_of_mem _ hf)
    · rw [hq hqp] at hf
      exact h.self q f hf
  · by_cases hqp : q = p
    · subst hqp
      have hmem : f ∈ fs := by
        rw [hp] at hf
        cases next with
        | none => exact List.mem_of_mem_tail hf
        | some g => exact hf
      exact h.tail q f (by rw [hst]; exact hmem)
    · rw [hq hqp] at hf
      exact h.tail q f hf
  · exact hused q np hnp (h.newborn q np ((hnew q).subset hnp))
  · exact h.once q r np ((hnew q).subset hnq) ((hnew r).subset hnr)

/-! ### One instruction -/

theorem Inv.of_next (h : Inv m) (next : Option Frame) (hmode : (m.cpu c).mode = .exec p)
    (hst : m.stack p = top :: fs) (hcpu : m'.cpu = m.cpu) (hstack : m'.stack p = next.toList ++ fs)
    (hlock : ∀ x c', c' ≠ c → m.lock x = some c' → m'.lock x = some c')
    (hheld : Holds m'.lock c (nextLocks next ++ locks fs))
    (htouch : ∀ q, q ≠ p → Touch m c q m')
    (hown : (m'.proc p).state = (m.proc p).state ∨ .proc p ∈ m.held c)
    (hstate : (m'.proc p).state = (nextMark next).getD .RUNNING)
    (hruns : ∀ q, (m'.proc q).state = .RUNNING → (m.proc q).state = .RUNNING)
    (hst' : StacksOk m') : Inv m' := by
  have hok := h.cpu c
  have hproc : (m.cpu c).proc = some p := by rw [hok.proc, hmode]; rfl
  have hc : m'.cpu c = m.cpu c := congrFun hcpu c
  have htail : ∀ f ∈ fs, f.locks = [] := by
    have ht := h.tail p
    rw [hst] at ht
    exact ht
  have hheld' : m'.held c = nextLocks next ++ locks fs := by
    unfold Machine.held
    rw [hc, hmode]
    dsimp only
    rw [hstack, locks_append]
  refine h.of_effect (c := c) ⟨fun c' _ => congrFun hcpu c', hlock, fun q => ?_, fun q hq => ?_⟩
    ⟨?_, ?_, ?_, ?_, ?_⟩ (fun q hq => Or.inl (hruns q hq)) (fun q hq => ?_) (fun q hq hne => ?_) hst'
  · by_cases hqp : q = p
    · subst hqp
      exact .own hproc hown
    · exact htouch q hqp
  · rw [hc] at hq
    exact Or.inl hq
  · rw [hc]
    exact hok.lt
  · rw [hc]
    exact hok.proc
  · rw [hheld']
    exact hheld.1
  · rw [hheld']
    exact hheld.2
  · have hmodeok := hok.mode
    rw [hc]
    unfold ModeOk at hmodeok ⊢
    rw [hmode] at hmodeok ⊢
    refine ⟨?_, hmodeok.2⟩
    rw [hstack, topMark_append next htail]
    exact hstate
  · rw [hmode] at hq
    cases hq
  · rw [hc] at hne
    exact absurd hq hne

theorem Inv.of_plain (h : Inv m) (m₁ : Machine) (hmode : (m.cpu c).mode = .exec p) (hst : m.stack p = top :: fs)
    (hplain : Plain (some p) top next) (hcpu : m₁.cpu = m.cpu) (hstk : m₁.stack = m.stack)
    (hstored : m₁.stored = m.stored)
    (hlock : ∀ x c', c' ≠ c → m.lock x = some c' → m₁.lock x = some c')
    (hheld : Holds m₁.lock c (nextLocks next ++ locks fs))
    (hstates : ∀ q, (m₁.proc q).state = (m.proc q).state) :
    Inv (m₁.setStack p (next.toList ++ fs)) := by
  have hmodeok := (h.cpu c).mode
  unfold ModeOk at hmodeok
  rw [hmode] at hmodeok
  have hstate : (m.proc p).state = top.mark.getD .RUNNING := by
    have hs := hmodeok.1
    rw [hst] at hs
    exact hs
  refine h.of_next next hmode hst hcpu (update_self ..) hlock hheld (fun q hq => ?_)
    (Or.inl (hstates p)) ?_ (fun q hq => hstates q ▸ hq) ?_
  · refine .same (hstates q) ?_ (congrFun hstored q)
    rw [Machine.setStack_stack, update_of_ne hq, hstk]
  · rw [hplain.mark, ← hstate]
    exact hstates p
  · refine h.toStacksOk.of_sublist next hplain.self hst (by rw [← hstk]; rfl) ?_
      fun q np _ hu => (hstates np).trans hu
    rw [hplain.newborn]

theorem setFrames_exec (hmode : (m.cpu c).mode = .exec p) (gs : List Frame) :
    m.setFrames c gs = m.setStack p gs := by
  unfold Machine.setFrames
  rw [hmode]

theorem Inv.exec_running (h : Inv m) (hmode : (m.cpu c).mode = .exec p)
    (hst : m.stack p = top :: fs) (hmark : top.mark = none) : (m.proc p).state = .RUNNING := by
  have hmodeok := (h.cpu c).mode
  unfold ModeOk at hmodeok
  rw [hmode] at hmodeok
  have hs := hmodeok.1
  rw [hst] at hs
  rw [hs, topMark, List.head?_cons, Option.bind_some, hmark]
  rfl

theorem Inv.of_turn (h : Inv m) (next : Option Frame) (hmode : (m.cpu c).mode = .exec p)
    (hst : m.stack p = top :: fs) {j : Nat} {y : Slot} (hself : ∀ g ∈ next, g.self = none ∨ g.self = some p)
    (hperm : (nextLocks next).Perm top.locks) (hmark : top.mark = none ∧ nextMark next = none)
    (hlocked : .proc j ∈ top.locks) (hold : (m.proc j).state ≠ .RUNNING) (hnew : y.state ≠ .RUNNING)
    (hwaits : Waits y.state → Waits (m.proc j).state)
    (hnew' : (nextNewborn next = top.newborn ∧ (m.proc j).state ≠ .USED) ∨
      (nextNewborn next = none ∧ top.newborn = some j)) :
    Inv ((m.setSlot j y).setStack p (next.toList ++ fs)) := by
  have hruns := h.exec_running hmode hst hmark.1
  have hpj : p ≠ j := by
    rintro rfl
    exact hold hruns
  have hheld : m.held c = top.locks ++ locks fs := held_exec hmode hst
  have hl : .proc j ∈ m.held c := by
    rw [hheld]
    exact List.mem_append_left _ hlocked
  have hp : ((m.setSlot j y).proc p).state = (m.proc p).state := by
    rw [Machine.setSlot_proc, update_of_ne hpj]
  refine h.of_next next hmode hst rfl (update_self ..) (fun _ _ _ hx => hx) ?_ (fun q hq => ?_)
    (Or.inl hp) ?_ (fun q hq => ?_) ?_
  · have hok := h.cpu c
    refine Holds.perm (L := m.held c) ⟨hok.nodup, hok.held⟩ ?_
    rw [hheld]
    exact hperm.append_right _
  · have hstk : ((m.setSlot j y).setStack p (next.toList ++ fs)).stack q = m.stack q := by
      rw [Machine.setStack_stack, update_of_ne hq]
      rfl
    by_cases hqj : q = j
    · subst hqj
      refine .turn hl hold (fun hw => hwaits ?_) hstk rfl
      rwa [Machine.setStack_proc, Machine.setSlot_proc, update_self] at hw
    · exact .same (congrArg Slot.state (update_of_ne hqj ..)) hstk rfl
  · rw [hmark.2]
    exact hp.trans hruns
  · by_cases hqj : q = j
    · subst hqj
      rw [Machine.setStack_proc, Machine.setSlot_proc, update_self] at hq
      exact absurd hq hnew
    · rwa [Machine.setStack_proc, Machine.setSlot_proc, update_of_ne hqj] at hq
  · refine h.toStacksOk.of_sublist next hself hst rfl ?_ fun q np hnp hu => ?_
    · rcases hnew' with ⟨heq, -⟩ | ⟨heq, -⟩ <;> rw [heq]
      exact List.nil_sublist _
    · have hnpj : np ≠ j := by
        rintro rfl
        rcases hnew' with ⟨-, hne⟩ | ⟨hnone, hborn⟩
        · exact hne hu
        · -- the new process is on this stack only, and there only once
          have htop : newborns (m.stack p) = np :: newborns fs := by
            rw [hst]
            show newborns ((some top).toList ++ fs) = _
            rw [newborns_append, nextNewborn, Option.bind_some, hborn]
            rfl
          by_cases hqp : q = p
          · subst hqp
            rw [Machine.setStack_stack, update_self, newborns_append, hnone] at hnp
            have hsingle := h.single q
            rw [htop, List.nodup_cons] at hsingle
            exact hsingle.1 hnp
          · rw [Machine.setStack_stack, update_of_ne hqp] at hnp
            exact hqp (h.once q p np hnp (by rw [htop]; exact List.mem_cons_self))
      rw [Machine.setStack_proc, Machine.setSlot_proc, update_of_ne hnpj]
      exact hu

theorem Inv.of_mark (h : Inv m) (hmode : (m.cpu c).mode = .exec p) (hst : m.stack p = top :: fs)
    {y : Slot} {g : Frame} (hperm : g.locks.Perm top.locks) (hunmarked : top.mark = none)
    (hmarked : g.mark = some y.state) (hnew : top.newborn = none ∧ g.newborn = none)
    (hself : g.self = none ∨ g.self = some p) (hlocked : .proc p ∈ top.locks) :
    Inv ((m.setSlot p y).setStack p (g :: fs)) := by
  have hruns := h.exec_running hmode hst hunmarked
  have hheld : m.held c = top.locks ++ locks fs := held_exec hmode hst
  have hy : y.state ≠ .RUNNING := by
    rcases (Frame.mark_locks hself hmarked).2 with hs | hs | hs <;> rw [hs] <;> nofun
  have hp : ((m.setSlot p y).proc p).state = y.state := by
    rw [Machine.setSlot_proc, update_self]
  refine h.of_next (some g) hmode hst rfl (update_self ..) (fun _ _ _ hx => hx) ?_
    (fun q hq => ?_) (Or.inr ?_) ?_ (fun q hq => ?_) ?_
  · have hok := h.cpu c
    refine Holds.perm (L := m.held c) ⟨hok.nodup, hok.held⟩ ?_
    rw [hheld]
    exact hperm.append_right _
  · exact .same (congrArg Slot.state (update_of_ne hq ..)) (update_of_ne hq ..) rfl
  · rw [hheld]
    exact List.mem_append_left _ hlocked
  · rw [nextMark, Option.bind_some, hmarked]
    exact hp
  · by_cases hqp : q = p
    · rw [hqp]
      exact hruns
    · rwa [Machine.setStack_proc, Machine.setSlot_proc, update_of_ne hqp] at hq
  · refine h.toStacksOk.of_sublist (some g) (fun g' hg' => by cases hg'; exact hself) hst rfl ?_
      fun q np _ hu => ?_
    · rw [nextNewborn, Option.bind_some, hnew.2]
      exact List.nil_sublist _
    · have hnp : np ≠ p := by
        rintro rfl
        rw [hruns] at hu
        cases hu
      rw [Machine.setStack_proc, Machine.setSlot_proc, update_of_ne hnp]
      exact hu

theorem Inv.of_alloc (h : Inv m) (hmode : (m.cpu c).mode = .exec p) (hst : m.stack p = top :: fs)
    {j pid nextpid : Nat} {g : Frame} (hperm : g.locks.Perm top.locks)
    (hmark : top.mark = none ∧ g.mark = none) (hnew : top.newborn = none ∧ g.newborn = some j)
    (hself : g.self = none ∨ g.self = some p) (hlocked : .proc j ∈ top.locks)
    (hold : (m.proc j).state = .UNUSED) :
    Inv (((((m.setSlot j ((m.proc j).taken pid)).setNextpid nextpid).setStack j
      [.forkret j]).setStored j NREGS).setStack p (g :: fs)) := by
  have hruns := h.exec_running hmode hst hmark.1
  have hpj : p ≠ j := by
    rintro rfl
    rw [hruns] at hold
    cases hold
  have hheld : m.held c = top.locks ++ locks fs := held_exec hmode hst
  have hl : .proc j ∈ m.held c := by
    rw [hheld]
    exact List.mem_append_left _ hlocked
  generalize hm' : (((((m.setSlot j ((m.proc j).taken pid)).setNextpid nextpid).setStack j
    [.forkret j]).setStored j NREGS).setStack p (g :: fs)) = m'
  have hproc : ∀ {q : Nat}, q ≠ j → m'.proc q = m.proc q := fun hq => by
    rw [← hm']
    exact update_of_ne hq ..
  have hprocj : (m'.proc j).state = .USED := by
    rw [← hm']
    show (update m.proc j ((m.proc j).taken pid) j).state = .USED
    rw [update_self]
    rfl
  have hstk : ∀ {q : Nat}, q ≠ p → q ≠ j → m'.stack q = m.stack q := fun hqp hqj => by
    rw [← hm']
    exact (update_of_ne hqp ..).trans (update_of_ne hqj ..)
  have hstkp : m'.stack p = g :: fs := by
    rw [← hm']
    exact update_self ..
  have hstkj : m'.stack j = [.forkret j] := by
    rw [← hm']
    exact (update_of_ne hpj.symm ..).trans (update_self ..)
  have hready : Ready m' j := by
    refine ⟨?_, .forkret j, [], hstkj, rfl⟩
    rw [← hm']
    exact update_self ..
  have htail := h.tail p
  rw [hst] at htail
  refine h.of_next (some g) hmode hst (by rw [← hm']; rfl) hstkp
    (fun x c' _ hx => by rw [← hm']; exact hx) ?_ (fun q hq => ?_) (Or.inl ?_) ?_ (fun q hq => ?_) ?_
  · have hok := h.cpu c
    refine Holds.perm (L := m.held c) ⟨hok.nodup, fun x hx => ?_⟩ ?_
    · rw [← hm']
      exact hok.held x hx
    · rw [hheld]
      exact hperm.append_right _
  · by_cases hqj : q = j
    · subst hqj
      exact .alloc hl hold hready
    · refine .same (by rw [hproc hqj]) (hstk hq hqj) ?_
      rw [← hm']
      exact update_of_ne hqj ..
  · rw [hproc hpj]
  · rw [hproc hpj, nextMark, Option.bind_some, hmark.2]
    exact hruns
  · by_cases hqj : q = j
    · rw [hqj, hprocj] at hq
      cases hq
    · rwa [hproc hqj] at hq
  · -- the new process is newborn on one stack only, because it was free
    have hfree : ∀ q, j ∉ newborns (m.stack q) := fun q hj => by
      rw [h.newborn q j hj] at hold
      cases hold
    have hnbp : newborns (m'.stack p) = j :: newborns fs := by
      rw [hstkp]
      show newborns ((some g).toList ++ fs) = _
      rw [newborns_append, nextNewborn, Option.bind_some, hnew.2]
      rfl
    have holdp : newborns (m.stack p) = newborns fs := by
      rw [hst]
      show newborns ((some top).toList ++ fs) = _
      rw [newborns_append, nextNewborn, Option.bind_some, hnew.1]
      rfl
    have hnb : ∀ {q np : Nat}, np ∈ newborns (m'.stack q) →
        (q = p ∧ np = j) ∨ np ∈ newborns (m.stack q) := fun {q np} hnp => by
      by_cases hqp : q = p
      · subst hqp
        rw [hnbp] at hnp
        rw [holdp]
        exact (List.mem_cons.mp hnp).imp_left fun heq => ⟨rfl, heq⟩
      · by_cases hqj : q = j
        · subst hqj
          rw [hstkj] at hnp
          cases hnp
        · rw [hstk hqp hqj] at hnp
          exact Or.inr hnp
    refine ⟨fun q f hf => ?_, fun q f hf => ?_, fun q np hnp => ?_, fun q r np hnq hnr => ?_,
      fun q => ?_⟩
    · by_cases hqp : q = p
      · subst hqp
        rw [hstkp] at hf
        rcases List.mem_cons.mp hf with rfl | hf
        · exact hself
        · exact h.self q f (by rw [hst]; exact List.mem_cons_of_mem _ hf)
      · by_cases hqj : q = j
        · subst hqj
          rw [hstkj, List.mem_singleton] at hf
          subst hf
          exact Or.inr rfl
        · rw [hstk hqp hqj] at hf
          exact h.self q f hf
    · by_cases hqp : q = p
      · subst hqp
        rw [hstkp] at hf
        exact htail f hf
      · by_cases hqj : q = j
        · subst hqj
          rw [hstkj] at hf
          cases hf
        · rw [hstk hqp hqj] at hf
          exact h.tail q f hf
    · rcases hnb hnp with ⟨-, rfl⟩ | hnp
      · exact hprocj
      · have hne : np ≠ j := by
          rintro rfl
          exact hfree q hnp
        rw [hproc hne]
        exact h.newborn q np hnp
    · rcases hnb hnq with ⟨rfl, rfl⟩ | hnq <;> rcases hnb hnr with ⟨hr, hnpj⟩ | hnr
      · exact hr.symm
      · exact absurd hnr (hfree r)
      · subst hnpj
        exact absurd hnq (hfree q)
      · exact h.once q r np hnq hnr
    · by_cases hqp : q = p
      · subst hqp
        rw [hnbp, List.nodup_cons, ← holdp]
        exact ⟨hfree q, h.single q⟩
      · by_cases hqj : q = j
        · subst hqj
          rw [hstkj]
          exact List.nodup_nil
        · rw [hstk hqp hqj]
          exact h.single q

theorem Inv.of_sched (h : Inv m) (hmode : (m.cpu c).mode = .exec p) (hst : m.stack p = top :: fs)
    {g : Frame} {s : ProcState} (htop : top.locks = [.proc p]) (hmark : top.mark = some s)
    (hnew : top.newborn = none ∧ g.newborn = none) (hself : g.self = some p)
    (htself : top.self = none ∨ top.self = some p) (hresumes : s ≠ .ZOMBIE → g.resumes = true) :
    Inv (((m.setStack p (g :: fs)).setStored p 0).setMode c (.saveProc p 0)) := by
  have hok := h.cpu c
  have hproc : (m.cpu c).proc = some p := by rw [hok.proc, hmode]; rfl
  have hmodeok := hok.mode
  unfold ModeOk at hmodeok
  rw [hmode] at hmodeok
  have hstate : (m.proc p).state = s := by
    have hs := hmodeok.1
    rw [hst, topMark, List.head?_cons, Option.bind_some, hmark] at hs
    exact hs
  have hl : .proc p ∈ m.held c := by
    rw [held_exec hmode hst, htop]
    exact List.mem_cons_self
  generalize hm' : ((m.setStack p (g :: fs)).setStored p 0).setMode c (.saveProc p 0) = m'
  have hcpu : m'.cpu c = ⟨(m.cpu c).proc, .saveProc p 0, (m.cpu c).context⟩ := by
    rw [← hm']
    exact update_self ..
  have hslot : m'.proc = m.proc := by rw [← hm']; rfl
  have hstk : m'.stack = update m.stack p (g :: fs) := by rw [← hm']; rfl
  have hstored : m'.stored = update m.stored p 0 := by rw [← hm']; rfl
  have hheld : m'.held c = [.proc p] := by
    unfold Machine.held
    rw [hcpu]
  refine h.of_effect (c := c) ⟨fun c' hc' => ?_, fun x c' _ hx => by rw [← hm']; exact hx,
    fun q => ?_, fun q hq => Or.inl (by rwa [hcpu] at hq)⟩ ⟨?_, ?_, ?_, ?_, ?_⟩
    (fun q hq => Or.inl (by rwa [hslot] at hq)) (fun q hq => ?_) (fun q hq hne => ?_) ?_
  · rw [← hm']
    exact update_of_ne hc' ..
  · by_cases hqp : q = p
    · subst hqp
      exact .own hproc (Or.inl (by rw [hslot]))
    · refine .same (by rw [hslot]) ?_ ?_
      · rw [hstk, update_of_ne hqp]
      · rw [hstored, update_of_ne hqp]
  · rw [hcpu]
    have hlt := hok.lt
    rw [hmode] at hlt
    exact hlt
  · rw [hcpu]
    exact hproc
  · rw [hheld]
    exact List.nodup_singleton _
  · rw [hheld]
    intro x hx
    rw [List.mem_singleton.mp hx, ← hm']
    exact hok.held _ hl
  · rw [hcpu]
    refine ⟨?_, Nat.zero_le _, ?_, hmodeok.2⟩
    · rw [hstored, update_self]
    · unfold Parked
      rw [hslot, hstate, hstk, update_self]
      rcases (Frame.mark_locks htself hmark).2 with hs | hs | hs
      · exact Or.inr ⟨Or.inl hs, g, fs, rfl, hresumes (by rw [hs]; nofun)⟩
      · exact Or.inr ⟨Or.inr hs, g, fs, rfl, hresumes (by rw [hs]; nofun)⟩
      · exact Or.inl hs
  · rw [hmode] at hq
    cases hq
  · rw [hcpu] at hne
    exact absurd hq hne
  · refine h.toStacksOk.of_sublist (some g) (fun g' hg' => by cases hg'; exact Or.inr hself)
      hst hstk ?_ fun q np _ hu => by rwa [hslot]
    rw [nextNewborn, Option.bind_some, hnew.2]
    exact List.nil_sublist _

/-- **A thread keeps the invariant.** -/
theorem exec_inv {i : Instr} (h : Inv m) (hmode : (m.cpu c).mode = .exec p)
    (hst : m.stack p = top :: fs) (hl : Legal m (some p) top i) (hs : perform m c fs i = .done m') :
    Inv m' := by
  have hok := h.cpu c
  have hheld : Holds m.lock c (top.locks ++ locks fs) := by
    have hh : Holds m.lock c (m.held c) := ⟨hok.nodup, hok.held⟩
    rwa [held_exec hmode hst] at hh
  have hkeep : ∀ {next : Option Frame}, (nextLocks next).Perm top.locks →
      Holds m.lock c (nextLocks next ++ locks fs) := fun hp => hheld.perm (hp.append_right _)
  have hsame : ∀ {j : Nat} {y : Slot}, y.state = (m.proc j).state →
      ∀ q, ((m.setSlot j y).proc q).state = (m.proc q).state := fun {j y} hy q => by
    rw [Machine.setSlot_proc]
    by_cases hq : q = j
    · subst hq
      rw [update_self, hy]
    · rw [update_of_ne hq]
  cases hl with
  | goto next hperm hplain =>
    cases hs
    rw [setFrames_exec (p := p) (by exact hmode)]
    exact h.of_plain _ hmode hst hplain rfl rfl rfl (fun _ _ _ hx => hx) (hkeep hperm) fun _ => rfl
  | acquire x next hperm hplain =>
    obtain ⟨m₁, h₁, h₂⟩ := Outcome.bind_eq_done.mp hs
    obtain ⟨hfree, rfl⟩ := acquire_done h₁
    cases h₂
    rw [setFrames_exec (p := p) (by exact hmode)]
    exact h.of_plain _ hmode hst hplain rfl rfl rfl (update_lock (Or.inl hfree))
      (hheld.acquire hfree (hperm.append_right _)) fun _ => rfl
  | release x next hperm hplain =>
    obtain ⟨m₁, h₁, h₂⟩ := Outcome.bind_eq_done.mp hs
    obtain ⟨hown, rfl⟩ := release_done h₁
    cases h₂
    rw [setFrames_exec (p := p) (by exact hmode)]
    exact h.of_plain _ hmode hst hplain rfl rfl rfl (update_lock (Or.inr hown))
      (hheld.release (hperm.append_right _)) fun _ => rfl
  | keep j y next hperm hplain hstate =>
    cases hs
    rw [setFrames_exec (p := p) (by exact hmode)]
    exact h.of_plain _ hmode hst hplain rfl rfl rfl (fun _ _ _ hx => hx) (hkeep hperm) (hsame hstate)
  | wake j y next hperm hplain hunmarked hlocked hold hnew =>
    cases hs
    rw [setFrames_exec (p := p) (by exact hmode)]
    exact h.of_turn next hmode hst hplain.self hperm ⟨hunmarked, hplain.mark.trans hunmarked⟩ hlocked
      (by rw [hold]; nofun) (by rw [hnew]; nofun) (fun _ => Or.inr (Or.inr hold))
      (Or.inl ⟨hplain.newborn, by rw [hold]; nofun⟩)
  | mark p' y g hperm hwho hunmarked hmarked hnew hself hlocked =>
    cases hwho
    cases hs
    rw [setFrames_exec (p := p) (by exact hmode)]
    exact h.of_mark hmode hst hperm hunmarked hmarked hnew hself hlocked
  | publish np y g hperm hunmarked hnew hself hlocked hy =>
    cases hs
    rw [setFrames_exec (p := p) (by exact hmode)]
    have hold : (m.proc np).state = .USED := by
      refine h.newborn p np ?_
      rw [hst]
      exact List.mem_filterMap.mpr ⟨top, List.mem_cons_self, hnew.1⟩
    exact h.of_turn (some g) hmode hst (fun g' hg' => by cases hg'; exact hself) hperm
      hunmarked hlocked (by rw [hold]; nofun) (by rw [hy]; nofun) (fun _ => Or.inl hold)
      (Or.inr ⟨hnew.2, hnew.1⟩)
  | reap j y next hperm hplain hunmarked hlocked hold hnew =>
    cases hs
    rw [setFrames_exec (p := p) (by exact hmode)]
    refine h.of_turn next hmode hst hplain.self hperm ⟨hunmarked, hplain.mark.trans hunmarked⟩ hlocked
      (by rw [hold]; nofun) (by rw [hnew]; nofun) (fun hw => ?_)
      (Or.inl ⟨hplain.newborn, by rw [hold]; nofun⟩)
    rw [hnew] at hw
    rcases hw with hw | hw | hw <;> cases hw
  | alloc j g hperm hunmarked hnew hself hlocked hold =>
    cases hs
    rw [setFrames_exec (p := p) (by exact hmode)]
    exact h.of_alloc hmode hst hperm hunmarked hnew hself hlocked hold
  | reject j next hperm hplain hold =>
    cases hs
    rw [setFrames_exec (p := p) (by exact hmode)]
    exact h.of_plain ((m.setSlot j .freed).setNextpid _) hmode hst hplain rfl rfl rfl
      (fun _ _ _ hx => hx) (hkeep hperm) (hsame (by rw [hold]; rfl))
  | setCond l b next hperm hplain =>
    cases hs
    rw [setFrames_exec (p := p) (by exact hmode)]
    exact h.of_plain _ hmode hst hplain rfl rfl rfl (fun _ _ _ hx => hx) (hkeep hperm) fun _ => rfl
  | sched p' g s hlocks hwho hmark hnew hself hresumes =>
    cases hwho
    unfold perform enterSwtch at hs
    dsimp only at hs
    repeat' split at hs
    all_goals cases hs
    rw [setFrames_exec (p := p) (by exact hmode)]
    have htself := h.self p top (by rw [hst]; exact List.mem_cons_self)
    exact h.of_sched hmode hst hlocks.1 hmark.1 hnew hself htself hresumes
  | rest => cases hs
  | panic e => cases hs

end Thread

/-! ### Interrupts and calls -/

section Interrupt

variable {m m' m₁ : Machine} {c p j : Nat} {f top : Frame} {fs : List Frame} {next : Option Frame}

/-- What is left to show of an instruction of a handler that `scheduler` has been interrupted
    by. -/
theorem Inv.of_irq (h : Inv m) (next : Option Frame) (hmode : (m.cpu c).mode = .irq j f)
    (hnext : ∀ g ∈ next, ∃ l at_, g = .waker l at_) (hcpu : m₁.cpu = m.cpu)
    (hstk : m₁.stack = m.stack) (hstored : m₁.stored = m.stored)
    (hlock : ∀ x c', c' ≠ c → m.lock x = some c' → m₁.lock x = some c')
    (hheld : Holds m₁.lock c (nextLocks next))
    (hstates : ∀ q, (m₁.proc q).state = (m.proc q).state ∨ (.proc q ∈ m.held c ∧
      (m.proc q).state = .SLEEPING ∧ (m₁.proc q).state = .RUNNABLE)) :
    Inv (m₁.setFrames c next.toList) := by
  have hok := h.cpu c
  have hproc : (m.cpu c).proc = none := by rw [hok.proc, hmode]; rfl
  have hlt := hok.lt
  rw [hmode] at hlt
  obtain ⟨md, hmd, hindex, hnone, hlocks, hmodeok⟩ : ∃ md : Mode,
      m₁.setFrames c next.toList = m₁.setMode c md ∧ md.index = j ∧ md.proc = none ∧
      (m₁.setMode c md).held c = nextLocks next ∧ ModeOk (m₁.setMode c md) ⟨none, md, (m.cpu c).context⟩ := by
    unfold Machine.setFrames
    rw [hcpu, hmode]
    cases next with
    | none => exact ⟨.look j, rfl, rfl, rfl, setCpu_held, trivial⟩
    | some g => exact ⟨.irq j g, rfl, rfl, rfl, setCpu_held, hnext g rfl⟩
  rw [hmd]
  have hc : (m₁.setMode c md).cpu c = ⟨none, md, (m.cpu c).context⟩ := by
    rw [Machine.setMode, Machine.setCpu_cpu, update_self, hcpu]
    dsimp only
    rw [hproc]
  refine h.of_effect (c := c) ⟨fun c' hc' => ?_, hlock, fun q => ?_, fun q hq => ?_⟩
    ⟨?_, ?_, ?_, ?_, ?_⟩ (fun q hq => Or.inl ?_) (fun q hq => ?_) (fun q hq => ?_) ?_
  · rw [Machine.setMode, Machine.setCpu_cpu, update_of_ne hc', hcpu]
  · rcases hstates q with hsame | ⟨hl, hold, hnew⟩
    · exact .same hsame (congrFun hstk q) (congrFun hstored q)
    · exact .turn hl (by rw [hold]; decide) (fun _ => Or.inr (Or.inr hold)) (congrFun hstk q)
        (congrFun hstored q)
  · rw [hc] at hq
    cases hq
  · rw [hc]
    show md.index < NPROC
    rwa [hindex]
  · rw [hc]
    exact hnone.symm
  · rw [hlocks]
    exact hheld.1
  · rw [hlocks]
    exact hheld.2
  · rw [hc]
    exact hmodeok
  · rcases hstates q with hsame | ⟨-, -, hnew⟩
    · exact hsame ▸ hq
    · exact absurd (hnew.symm.trans hq) (by decide)
  · rw [hmode] at hq
    cases hq
  · rw [hproc] at hq
    cases hq
  · refine h.toStacksOk.congr hstk fun q hq => ?_
    rcases hstates q with hsame | ⟨-, hold, -⟩
    · exact hsame.trans hq
    · rw [hold] at hq
      cases hq

theorem irq_inv {ok : Bool} (h : Inv m) (hmode : (m.cpu c).mode = .irq j f)
    (hs : perform m c [] (instr m c ok f) = .done m') : Inv m' := by
  have hok := h.cpu c
  have hmodeok := hok.mode
  unfold ModeOk at hmodeok
  rw [hmode] at hmodeok
  obtain ⟨l, at_, rfl⟩ := hmodeok
  have hheld : Holds m.lock c (Frame.waker l at_).locks := by
    have hh : Holds m.lock c (m.held c) := ⟨hok.nodup, hok.held⟩
    unfold Machine.held at hh
    rwa [hmode] at hh
  have hnext : ∀ {at_ : WakerAt}, ∀ g ∈ some (Frame.waker l at_), ∃ l at_, g = .waker l at_ :=
    fun g hg => by
      cases hg
      exact ⟨l, _, rfl⟩
  have hgoto : ∀ {at' : WakerAt} {m₁ : Machine}, m₁.cpu = m.cpu → m₁.stack = m.stack →
      m₁.stored = m.stored → m₁.lock = m.lock → m₁.proc = m.proc →
      (Frame.waker l at').locks = (Frame.waker l at_).locks →
      Inv (m₁.setFrames c [.waker l at']) := fun hcpu hstk hstored hlock hproc hlocks =>
    h.of_irq (some (.waker l _)) hmode hnext hcpu hstk hstored
      (fun _ _ _ hx => by rwa [hlock])
      (by rw [hlock]; show Holds m.lock c (Frame.waker l _).locks; rwa [hlocks])
      fun q => Or.inl (by rw [hproc])
  have hacquire : ∀ {at' : WakerAt} {x : Lock} {m₁ : Machine}, acquire m c x = .done m₁ →
      (Frame.waker l at').locks = x :: (Frame.waker l at_).locks →
      Inv (m₁.setFrames c [.waker l at']) := fun h₁ hlocks => by
    obtain ⟨hfree, rfl⟩ := acquire_done h₁
    exact h.of_irq (some (.waker l _)) hmode hnext rfl rfl rfl (update_lock (Or.inl hfree))
      (hheld.acquire hfree (by rw [← hlocks]; exact List.Perm.refl _)) fun q => Or.inl rfl
  cases at_ with
  | acquire =>
    obtain ⟨m₁, h₁, h₂⟩ := Outcome.bind_eq_done.mp hs
    cases h₂
    exact hacquire h₁ rfl
  | set =>
    cases hs
    exact hgoto rfl rfl rfl rfl rfl rfl
  | release =>
    obtain ⟨m₁, h₁, h₂⟩ := Outcome.bind_eq_done.mp hs
    obtain ⟨hown, rfl⟩ := release_done h₁
    cases h₂
    exact h.of_irq none hmode nofun rfl rfl rfl (update_lock (Or.inr hown))
      (hheld.release (List.Perm.refl _)) fun q => Or.inl rfl
  | waking i at_ =>
    cases at_ with
    | acquire =>
      dsimp only [instr, wakerInstr, wakeInstr] at hs
      split at hs
      · split at hs
        · cases hs
          exact hgoto rfl rfl rfl rfl rfl rfl
        · obtain ⟨m₁, h₁, h₂⟩ := Outcome.bind_eq_done.mp hs
          cases h₂
          exact hacquire h₁ rfl
      · cases hs
        exact hgoto rfl rfl rfl rfl rfl rfl
    | test =>
      dsimp only [instr, wakerInstr, wakeInstr] at hs
      split at hs
      · rename_i hold
        cases hs
        refine h.of_irq (some (.waker l _)) hmode hnext rfl rfl rfl (fun _ _ _ hx => hx) hheld
          fun q => ?_
        by_cases hq : q = i
        · subst hq
          refine Or.inr ⟨?_, hold.1, ?_⟩
          · unfold Machine.held
            rw [hmode]
            exact List.mem_cons_self
          · rw [Machine.setSlot_proc, update_self]
            rfl
        · exact Or.inl (by rw [Machine.setSlot_proc, update_of_ne hq])
      · cases hs
        exact hgoto rfl rfl rfl rfl rfl rfl
    | release =>
      obtain ⟨m₁, h₁, h₂⟩ := Outcome.bind_eq_done.mp hs
      obtain ⟨hown, rfl⟩ := release_done h₁
      cases h₂
      exact h.of_irq (some (.waker l _)) hmode hnext rfl rfl rfl (update_lock (Or.inr hown))
        (hheld.release (List.Perm.refl _)) fun q => Or.inl rfl

theorem topMark_eq_none (hfree : ∀ f ∈ fs, f.locks = []) : topMark fs = none :=
  topMark_append none hfree

theorem Inv.of_push (h : Inv m) (hmode : (m.cpu c).mode = .exec p)
    (hfree : ∀ f ∈ m.stack p, f.locks = []) (hlocks : f.locks = []) (hnew : f.newborn = none)
    (hself : f.self = none ∨ f.self = some p) : Inv (m.setStack p (f :: m.stack p)) := by
  have hok := h.cpu c
  have hproc : (m.cpu c).proc = some p := by rw [hok.proc, hmode]; rfl
  have hmodeok := hok.mode
  unfold ModeOk at hmodeok
  rw [hmode] at hmodeok
  dsimp only at hmodeok
  rw [topMark_eq_none hfree] at hmodeok
  have hfree' : ∀ g ∈ f :: m.stack p, g.locks = [] := fun g hg => by
    rcases List.mem_cons.mp hg with rfl | hg
    · exact hlocks
    · exact hfree g hg
  have hstkp : (m.setStack p (f :: m.stack p)).stack p = f :: m.stack p := update_self ..
  have hstk : ∀ {q : Nat}, q ≠ p → (m.setStack p (f :: m.stack p)).stack q = m.stack q := fun hq =>
    update_of_ne hq ..
  have hheld : (m.setStack p (f :: m.stack p)).held c = [] := by
    unfold Machine.held
    rw [Machine.setStack_cpu, hmode]
    dsimp only
    rw [hstkp]
    exact locks_eq_nil hfree'
  have hnb : ∀ q, newborns ((m.setStack p (f :: m.stack p)).stack q) = newborns (m.stack q) :=
    fun q => by
      by_cases hq : q = p
      · subst hq
        rw [hstkp, newborns, List.filterMap_cons_none hnew]
        rfl
      · rw [hstk hq]
  refine h.of_effect (c := c) ⟨fun _ _ => rfl, fun _ _ _ hx => hx, fun q => ?_, fun q hq => Or.inl hq⟩
    ⟨hok.lt, hok.proc, ?_, ?_, ?_⟩ (fun q hq => Or.inl hq) (fun q hq => ?_)
    (fun q hq hne => absurd hq hne) ⟨fun q g hg => ?_, fun q g hg => ?_, fun q np hnp => ?_,
      fun q r np hnq hnr => ?_, fun q => ?_⟩
  · by_cases hq : q = p
    · subst hq
      exact .own hproc (Or.inl rfl)
    · exact .same rfl (hstk hq) rfl
  · rw [hheld]
    exact List.nodup_nil
  · rw [hheld]
    rintro _ ⟨⟩
  · rw [Machine.setStack_cpu]
    unfold ModeOk
    rw [hmode]
    refine ⟨?_, hmodeok.2⟩
    rw [hstkp, topMark_eq_none hfree']
    exact hmodeok.1
  · rw [hmode] at hq
    cases hq
  · by_cases hq : q = p
    · subst hq
      rw [hstkp] at hg
      rcases List.mem_cons.mp hg with rfl | hg
      · exact hself
      · exact h.self q g hg
    · rw [hstk hq] at hg
      exact h.self q g hg
  · by_cases hq : q = p
    · subst hq
      rw [hstkp] at hg
      exact hfree g hg
    · rw [hstk hq] at hg
      exact h.tail q g hg
  · rw [hnb] at hnp
    exact h.newborn q np hnp
  · rw [hnb] at hnq hnr
    exact h.once q r np hnq hnr
  · rw [hnb]
    exact h.single q

/-- Where a CPU holds no lock, no function on the stack does. -/
theorem frames_free (hmode : (m.cpu c).mode = .exec p) (hnoff : m.noff c = 0) :
    ∀ f ∈ m.stack p, f.locks = [] := by
  unfold Machine.noff Machine.held at hnoff
  rw [hmode] at hnoff
  exact List.flatMap_eq_nil_iff.mp (List.length_eq_zero_iff.mp hnoff)

theorem startCall_inv {call : Call} (h : Inv m) (hs : startCall m c call = .done m') : Inv m' := by
  unfold startCall at hs
  split at hs
  · rename_i p fs p' hmode hframes hp
    have hproc := (h.cpu c).proc
    rw [hmode, hp] at hproc
    cases hproc
    unfold Machine.frames at hframes
    rw [hmode] at hframes
    dsimp only at hframes
    have hfree : ∀ f ∈ m.stack p, f.locks = [] := by
      have htail := h.tail p
      rw [hframes] at htail ⊢
      intro f hf
      rcases List.mem_cons.mp hf with rfl | hf
      · rfl
      · exact htail f hf
    have hpush : Inv (m.setFrames c (call.frame p :: .user :: fs)) := by
      rw [setFrames_exec hmode, ← hframes]
      refine h.of_push hmode hfree ?_ ?_ ?_ <;> cases call <;>
        first | rfl | exact Or.inr rfl | exact Or.inl rfl
    split at hs
    · split at hs
      · cases hs
      · cases hs
        exact hpush
    · cases hs
      exact hpush
  · cases hs

theorem timer_inv (h : Inv m) (hs : timer m c = .done m') : Inv m' := by
  unfold timer at hs
  split at hs
  · rename_i p p' hmode hp
    have hproc := (h.cpu c).proc
    rw [hmode, hp] at hproc
    cases hproc
    split at hs
    · rename_i hnoff
      cases hs
      have hframes : m.frames c = m.stack p := by
        unfold Machine.frames
        rw [hmode]
      rw [setFrames_exec hmode, hframes]
      exact h.of_push hmode (frames_free hmode hnoff) rfl rfl (Or.inr rfl)
    · cases hs
  · cases hs

theorem device_inv {l : Nat} (h : Inv m) (hs : device m c l = .done m') : Inv m' := by
  unfold device at hs
  split at hs
  · rename_i p hmode
    split at hs
    · rename_i hnoff
      cases hs
      have hframes : m.frames c = m.stack p := by
        unfold Machine.frames
        rw [hmode]
      rw [setFrames_exec hmode, hframes]
      exact h.of_push hmode (frames_free hmode hnoff) rfl rfl (Or.inl rfl)
    · cases hs
  · rename_i j hmode
    cases hs
    have hok := h.cpu c
    have hlt := hok.lt
    have hproc := hok.proc
    rw [hmode] at hlt hproc
    refine h.of_mode (fun p hp => Or.inl hp) ⟨?_, ?_, ?_, ?_, ?_⟩ (fun p hp => ?_)
      fun p hp hne => absurd hp hne
    · rw [Machine.setCpu_cpu, update_self]
      exact hlt
    · rw [Machine.setCpu_cpu, update_self]
      exact hproc
    · rw [setCpu_held]
      exact List.nodup_nil
    · rw [setCpu_held]
      rintro _ ⟨⟩
    · rw [Machine.setCpu_cpu, update_self]
      exact ⟨l, _, rfl⟩
    · rw [hmode] at hp
      cases hp
  · cases hs

end Interrupt

section Step

variable {m m' : Machine}

theorem run_inv {c : Nat} {ok : Bool} (h : Inv m) (hs : run m c ok = .done m') : Inv m' := by
  by_cases hexec : ∃ p, (m.cpu c).mode = .exec p
  · obtain ⟨p, hmode⟩ := hexec
    have hproc := (h.cpu c).proc
    rw [hmode] at hproc
    unfold run Machine.frames at hs
    simp only [hmode] at hs
    split at hs
    · cases hs
    · rename_i top fs hst
      exact exec_inv h hmode hst
        (instr_legal top hproc (h.self p top (by rw [hst]; exact List.mem_cons_self))) hs
  · by_cases hirq : ∃ j f, (m.cpu c).mode = .irq j f
    · obtain ⟨j, f, hmode⟩ := hirq
      unfold run Machine.frames at hs
      simp only [hmode] at hs
      exact irq_inv h hmode hs
    · exact scheduler_inv h (fun p hp => hexec ⟨p, hp⟩) (fun j f hf => hirq ⟨j, f, hf⟩) hs

/-- **One step keeps the invariant.** -/
theorem step_inv {a : Act} (h : Inv m) (hs : step m a = .done m') : Inv m' := by
  cases a with
  | run c ok => exact run_inv h hs
  | call c call => exact startCall_inv h hs
  | timer c => exact timer_inv h hs
  | device c l => exact device_inv h hs

theorem boot_proc {p : Nat} (hp : p ≠ 0) : boot.proc p = .freed := by
  simp [boot, hp]

theorem boot_inv : Inv boot := by
  have hstate : ∀ p, Waits (boot.proc p).state → p = 0 := fun p hw => by
    by_contra hne
    rw [boot_proc hne] at hw
    rcases hw with hw | hw | hw <;> cases hw
  have hnot : ∀ p, (boot.proc p).state ≠ .RUNNING := fun p hp => by
    by_cases hp0 : p = 0
    · subst hp0
      cases hp
    · rw [boot_proc hp0] at hp
      cases hp
  refine ⟨⟨fun p f hf => ?_, nofun, nofun, nofun, fun _ => List.nodup_nil⟩, fun c => ?_, nofun,
    fun p hp => absurd hp (hnot p), fun p hw _ => ?_⟩
  · rw [List.mem_singleton.mp hf]
    exact Or.inr rfl
  · exact ⟨(by decide : 0 < NPROC), rfl, List.nodup_nil, nofun, trivial⟩
  · rw [hstate p hw]
    exact ⟨rfl, .forkret 0, [], rfl, rfl⟩

theorem reach_inv (hr : Reach m) : Inv m :=
  Reachable.invariant (I := Inv) boot_inv (fun _ h _ hs => step_inv h hs) hr

/-- **A process runs on at most one CPU.**  In every state that any interleaving reaches: at most
    one CPU has the process in `c->proc`; while its lock is free, its state is `RUNNING` just if
    one has; and a CPU loads registers from `p->context` only when all of them have been stored
    there and none is being stored. -/
theorem one_cpu (hr : Reach m) :
    (∀ c c' p, (m.cpu c).proc = some p → (m.cpu c').proc = some p → c = c') ∧
    (∀ p, m.lock (.proc p) = none →
      ((m.proc p).state = .RUNNING ↔ ∃! c, (m.cpu c).proc = some p)) ∧
    ∀ c p k, (m.cpu c).mode = .loadProc p k →
      m.stored p = NREGS ∧ ∀ c' k', (m.cpu c').mode ≠ .saveProc p k' := by
  have h := reach_inv hr
  refine ⟨h.unique, fun p hfree => ⟨fun hrun => ?_, fun hc => ?_⟩, fun c p k hmode => ⟨?_, ?_⟩⟩
  · obtain ⟨c, hc | hassign⟩ := h.on_cpu p hrun
    · exact ⟨c, hc, fun c' hc' => h.unique c' c p hc' hc⟩
    · have hl := (h.cpu c).held (.proc p) (by simp [Machine.held, hassign])
      rw [hfree] at hl
      cases hl
  · obtain ⟨c, hc, -⟩ := hc
    rcases h.running_or hc with hrun | hl
    · exact hrun
    · rw [(h.cpu c).held _ hl] at hfree
      cases hfree
  · have hok := (h.cpu c).mode
    unfold ModeOk at hok
    rw [hmode] at hok
    exact hok.2.1.stored
  · intro c' k' hmode'
    have hl : Lock.proc p ∈ m.held c := by simp [Machine.held, hmode]
    have hl' : Lock.proc p ∈ m.held c' := by simp [Machine.held, hmode']
    rw [h.exclusive hl hl', hmode'] at hmode
    cases hmode

end Step

/-! ### A run -/

def go (c n : Nat) : List Act := List.replicate n (.run c true)

/-- A machine at the end of a list of steps. -/
def after (as : List Act) : Machine := finalState step (fun _ _ => true) boot as

theorem reach_after {as : List Act}
    (h : (Transition.run step (fun _ _ => true) boot as).isSome = true) : Reach (after as) :=
  (reachable_finalState h).mono fun _ _ _ => trivial

/-- CPU 0 is in the middle of switching to the first process. -/
theorem one_cpu_switching :
    Reach (after (go 0 20)) ∧ ((after (go 0 20)).cpu 0).mode = .loadProc 0 1 ∧
      (after (go 0 20)).stored 0 = NREGS ∧
      ∀ c k, ((after (go 0 20)).cpu c).mode ≠ .saveProc 0 k := by
  have hr : Reach (after (go 0 20)) := reach_after (by decide)
  have hmode : ((after (go 0 20)).cpu 0).mode = .loadProc 0 1 := by decide
  exact ⟨hr, hmode, (one_cpu hr).2.2 0 0 1 hmode⟩

end Xv6.Sched
