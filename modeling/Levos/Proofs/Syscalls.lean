import Levos.Syscalls

namespace Levos.Proofs.Syscalls
open Levos Levos.Library Levos.Syscalls

variable {s s' : State} {p q : Syscalls.Process}

/-- The call returned the pid of the child it had created, and the length, the
memory and the stack of that child are those of the caller. -/
structure Right (r : Returned) : Prop where
  pid : r.pid = r.own.pid
  execLen : r.own.execLen = r.parent.execLen
  memory : r.memory = some (r.caller, r.parent.pallocLen)
  stack : ∃ b th, r.stackbot = some b ∧ r.thread = some th ∧ th.copied = some (b, r.caller)

/-- Every `sys_fork` so far was right, and every `elf_start` was given the size of
its caller's file. -/
structure Faithful (s : State) : Prop where
  returns : ∀ r ∈ s.returns, Right r
  starts : ∀ r ∈ s.starts, r.given = r.size

/-- No process is caught inside a call. -/
def GoesOn (s : State) : Prop :=
  ∀ i ∈ s.table, s.pc i ≠ .user → ∀ palloc, (s.step (.resume i palloc)).isSome

/-- The child that a fork in progress has created. -/
def ownChild : Pc → Option Nat
  | .directory own _ | .table own _ | .freeing own | .thread own | .stack own => some own
  | .user | .loading _ _ => none

/-- The image has been copied. -/
def Imaged : Pc → Prop
  | .freeing _ | .thread _ | .stack _ => True
  | _ => False

/-- No process has the frames in its window. -/
def Fresh (s : State) (palloc : Nat) : Prop := ∀ q ∈ s.procs, q.paged ≠ palloc

instance (s : State) (palloc : Nat) : Decidable (Fresh s palloc) :=
  inferInstanceAs (Decidable (∀ q ∈ s.procs, q.paged ≠ palloc))

/-- A fork is entered while no other is in progress, by a process whose thread has
a `stackbot`; `esize` is set while no other `sys_execve` needs it; and an image is
loaded into frames that no process has. -/
def Alone (s : State) : Op → Prop
  | .fork i _ => (∀ j, ownChild (s.pc j) = none) ∧
      ∃ p b, s.procs[i]? = some p ∧ s.stackbot p = some b ∧ b ≠ 0
  | .execve _ _ mallocs palloc =>
      (∀ j size n, s.pc j ≠ .loading size n) ∧ (mallocs = 0 → Fresh s palloc)
  | .resume i palloc => ∀ size n, s.pc i = .loading size n → n ≤ 1 → Fresh s palloc

/-- The variables of `fork.c` are those of the one fork in progress. -/
structure Forking (s : State) (i own : Nat) (p q : Syscalls.Process) : Prop where
  parent : s.parent = some i
  child : s.child = some own
  absent : own ∉ s.table
  caller : s.procs[i]? = some p
  made : s.procs[own]? = some q
  execLen : q.execLen = p.execLen
  pallocLen : q.pallocLen = p.pallocLen
  stackbot : ∃ b, s.stackbot p = some b ∧ b ≠ 0
  image : Imaged (s.pc i) → s.image q.paged = some (i, p.pallocLen)
  thread : s.pc i = .stack own → ∃ t, s.t = some t ∧ s.threads[t]? = some ⟨own, 0, none⟩

structure Inv (s : State) : Prop where
  faithful : Faithful s
  sized : ∀ p ∈ s.procs, p.execLen = p.pallocLen
  listed : ∀ i ∈ s.table, i < s.procs.length
  forking : ∀ i own, ownChild (s.pc i) = some own → ∃ p q, Forking s i own p q
  loading : ∀ i size n, s.pc i = .loading size n → s.esize = size

theorem goto_self (s : State) (i : Nat) (pc : Pc) : (s.goto i pc).pc i = pc :=
  Function.update_self _ _ _

theorem goto_other (h : j ≠ i) (pc : Pc) : (s.goto i pc).pc j = s.pc j :=
  Function.update_of_ne h _ _

/-- Only one fork can be in progress. -/
theorem Inv.alone (h : Inv s) (hi : ownChild (s.pc i) = some own)
    (hj : ownChild (s.pc j) = some own') : i = j := by
  obtain ⟨_, _, hfi⟩ := h.forking i own hi
  obtain ⟨_, _, hfj⟩ := h.forking j own' hj
  exact Option.some.inj (hfi.parent.symm.trans hfj.parent)

/-- Another process takes a step while the fork waits. -/
theorem Forking.wait (h : Forking s i own p q) (hparent : s'.parent = s.parent)
    (hchild : s'.child = s.child) (ht : s'.t = s.t) (hthreads : s'.threads = s.threads)
    (htable : s'.table = s.table) (hpc : s'.pc i = s.pc i) (hi : s'.procs[i]? = s.procs[i]?)
    (hown : s'.procs[own]? = s.procs[own]?) (himage : s'.image q.paged = s.image q.paged) :
    Forking s' i own p q where
  parent := hparent.trans h.parent
  child := hchild.trans h.child
  absent := htable.symm ▸ h.absent
  caller := hi.trans h.caller
  made := hown.trans h.made
  execLen := h.execLen
  pallocLen := h.pallocLen
  stackbot := by
    obtain ⟨b, hb, hne⟩ := h.stackbot
    refine ⟨b, ?_, hne⟩
    rw [← hb, State.stackbot, State.stackbot, hthreads]
  image := by
    rw [hpc, himage]
    exact h.image
  thread := by
    rw [hpc, ht, hthreads]
    exact h.thread

/-- What a step of the fork in progress has to show: no other fork is. -/
theorem Inv.of_goto (pc : Pc) (h : Inv s) (hown : ownChild (s.pc i) = some own)
    (hpc : s'.pc = (s.goto i pc).pc)
    (hnew : ∀ own', ownChild pc = some own' → ∃ p q, Forking s' i own' p q)
    (hload : ∀ size n, pc ≠ .loading size n) (hfaith : Faithful s')
    (hsized : ∀ p ∈ s'.procs, p.execLen = p.pallocLen)
    (hlisted : ∀ i ∈ s'.table, i < s'.procs.length) (hesize : s'.esize = s.esize) : Inv s' := by
  refine ⟨hfaith, hsized, hlisted, ?_, ?_⟩
  · intro j own' hj
    rw [hpc] at hj
    by_cases hji : j = i
    · subst hji
      rw [goto_self] at hj
      exact hnew own' hj
    · rw [goto_other hji] at hj
      exact absurd (h.alone hj hown) hji
  · intro j size n hj
    rw [hpc] at hj
    by_cases hji : j = i
    · subst hji
      rw [goto_self] at hj
      exact absurd hj (hload size n)
    · rw [goto_other hji] at hj
      exact hesize.trans (h.loading j size n hj)

/-- The fork goes on with its child. -/
theorem Inv.advance (pc : Pc) (h : Inv s) (hown : ownChild (s.pc i) = some own)
    (hpc : s'.pc = (s.goto i pc).pc) (hnew : ownChild pc = some own)
    (hf : Forking s' i own p q) (hfaith : Faithful s')
    (hsized : ∀ p ∈ s'.procs, p.execLen = p.pallocLen)
    (hlisted : ∀ i ∈ s'.table, i < s'.procs.length) (hesize : s'.esize = s.esize) : Inv s' := by
  refine h.of_goto pc hown hpc ?_ ?_ hfaith hsized hlisted hesize
  · intro own' hown'
    obtain rfl := Option.some.inj (hnew.symm.trans hown')
    exact ⟨p, q, hf⟩
  · rintro size n rfl
    cases hnew

/-- The fork moves on without a store. -/
theorem Inv.move (h : Inv s) (hown : ownChild (s.pc i) = some own)
    (hpc : ownChild pc = some own) (himage : Imaged pc → Imaged (s.pc i))
    (hstack : pc ≠ .stack own) : Inv (s.goto i pc) := by
  obtain ⟨p, q, hf⟩ := h.forking i own hown
  refine h.advance pc (p := p) (q := q) hown rfl hpc ?_
    ⟨h.faithful.returns, h.faithful.starts⟩ h.sized h.listed rfl
  refine ⟨hf.parent, hf.child, hf.absent, hf.caller, hf.made, hf.execLen, hf.pallocLen,
    hf.stackbot, ?_, ?_⟩
  · rw [goto_self]
    exact fun hi => hf.image (himage hi)
  · rw [goto_self]
    exact fun hs => absurd hs hstack

theorem Inv.fork (h : Inv s) (hg : Alone s (.fork i palloc)) (hs : s.sysFork i palloc = some s') :
    Inv s' := by
  obtain ⟨hnone, p, b, hp, hb, hne⟩ := hg
  simp only [State.sysFork, hp, Option.some.injEq] at hs
  subst hs
  have hlt : i < s.procs.length := (List.getElem?_eq_some_iff.mp hp).1
  have hsized := h.sized p (List.mem_of_getElem? hp)
  refine ⟨⟨h.faithful.returns, h.faithful.starts⟩, ?_, ?_, ?_, ?_⟩
  · intro q hq
    rcases List.mem_append.mp hq with hq | hq
    · exact h.sized q hq
    · rw [List.mem_singleton.mp hq]
  · intro j hj
    have := h.listed j hj
    rw [List.length_append]
    omega
  · intro j own hj
    by_cases hji : j = i
    · subst hji
      rw [show ownChild _ = _ from congrArg ownChild (goto_self s j _)] at hj
      cases hj
      refine ⟨p, _, rfl, rfl, ?_, ?_, List.getElem?_concat_length, rfl, hsized, ⟨b, hb, hne⟩,
        ?_, ?_⟩
      · exact fun hm => absurd (h.listed _ hm) (Nat.lt_irrefl _)
      · rw [List.getElem?_append_left hlt]
        exact hp
      · rw [show Imaged _ = _ from congrArg Imaged (goto_self s j _)]
        exact False.elim
      · intro hst
        cases (goto_self s j _).symm.trans hst
    · rw [show ownChild _ = _ from congrArg ownChild (goto_other hji _), hnone j] at hj
      cases hj
  · intro j size n hj
    by_cases hji : j = i
    · subst hji
      cases (goto_self s j _).symm.trans hj
    · exact h.loading j size n ((goto_other hji _).symm.trans hj)

theorem sized_set {procs : List Syscalls.Process} (hs : ∀ p ∈ procs, p.execLen = p.pallocLen)
    (hq : q.execLen = q.pallocLen) : ∀ p ∈ procs.set c q, p.execLen = p.pallocLen := by
  intro p hp
  rcases List.mem_or_eq_of_mem_set hp with hp | rfl
  · exact hs p hp
  · exact hq

theorem Inv.copy (h : Inv s) (hi : i ∈ s.table) (hpc : s.pc i = .table own palloc)
    (hs : s.copyImage i own palloc = some s') : Inv s' := by
  have hown : ownChild (s.pc i) = some own := by rw [hpc]; rfl
  obtain ⟨p, q, hf⟩ := h.forking i own hown
  have hne : own ≠ i := by
    rintro rfl
    exact hf.absent hi
  have hlt : own < s.procs.length := (List.getElem?_eq_some_iff.mp hf.made).1
  simp only [State.copyImage, hf.parent, hf.child, Option.bind_some, hf.caller, hf.made,
    Option.some.injEq] at hs
  subst hs
  refine h.advance (.freeing own) (p := p) (q := { q with paged := palloc }) hown rfl rfl ?_
    ⟨h.faithful.returns, h.faithful.starts⟩ ?_ ?_ rfl
  · refine ⟨hf.parent, hf.child, hf.absent, ?_, ?_, hf.execLen, hf.pallocLen, hf.stackbot, ?_, ?_⟩
    · rw [List.getElem?_set_ne hne]
      exact hf.caller
    · exact List.getElem?_set_self hlt
    · intro _
      simp only [Function.update_self, hf.pallocLen, Nat.min_self]
    · intro hst
      cases (goto_self s i _).symm.trans hst
  · exact sized_set h.sized (h.sized q (List.mem_of_getElem? hf.made))
  · intro j hj
    rw [List.length_set]
    exact h.listed j hj

theorem Inv.makeThread (h : Inv s) (hpc : s.pc i = .thread own)
    (hs : s.makeThread i own = some s') : Inv s' := by
  have hown : ownChild (s.pc i) = some own := by rw [hpc]; rfl
  obtain ⟨p, q, hf⟩ := h.forking i own hown
  simp only [State.makeThread, hf.child, Option.some.injEq] at hs
  subst hs
  refine h.advance (.stack own) (p := p) (q := q) hown rfl rfl ?_
    ⟨h.faithful.returns, h.faithful.starts⟩ h.sized h.listed rfl
  refine ⟨hf.parent, hf.child, hf.absent, hf.caller, hf.made, hf.execLen, hf.pallocLen, ?_, ?_, ?_⟩
  · obtain ⟨b, hb, hne⟩ := hf.stackbot
    refine ⟨b, ?_, hne⟩
    obtain ⟨th, hth, rfl⟩ := Option.map_eq_some_iff.mp hb
    obtain ⟨k, hk, hget⟩ := Option.bind_eq_some_iff.mp hth
    have hlt : k < s.threads.length := (List.getElem?_eq_some_iff.mp hget).1
    simp only [State.stackbot, hk, Option.bind_some, List.getElem?_append_left hlt, hget,
      Option.map_some]
  · intro _
    exact hf.image (by rw [hpc]; trivial)
  · intro _
    exact ⟨s.threads.length, rfl, List.getElem?_concat_length⟩

/-- With the one fork in progress over, none is. -/
theorem Inv.leave (h : Inv s) (hown : ownChild (s.pc i) = some own)
    (hpc : s'.pc = (s.goto i .user).pc) (hfaith : Faithful s')
    (hsized : ∀ p ∈ s'.procs, p.execLen = p.pallocLen)
    (hlisted : ∀ i ∈ s'.table, i < s'.procs.length) (hesize : s'.esize = s.esize) : Inv s' := by
  refine h.of_goto .user hown hpc ?_ ?_ hfaith hsized hlisted hesize
  · rintro own' ⟨⟩
  · rintro size n ⟨⟩

theorem add_keeps (s : State) (c : Nat) :
    (s.schedulerAddProcess c).procs = s.procs ∧ (s.schedulerAddProcess c).threads = s.threads ∧
      (s.schedulerAddProcess c).image = s.image ∧ (s.schedulerAddProcess c).pc = s.pc ∧
      (s.schedulerAddProcess c).esize = s.esize ∧ (s.schedulerAddProcess c).returns = s.returns ∧
      (s.schedulerAddProcess c).starts = s.starts ∧
      ∀ i ∈ (s.schedulerAddProcess c).table, i ∈ s.table ∨ i = c := by
  unfold State.schedulerAddProcess
  split
  · refine ⟨rfl, rfl, rfl, rfl, rfl, rfl, rfl, ?_⟩
    intro i hi
    exact (List.mem_append.mp hi).imp_right List.mem_singleton.mp
  · exact ⟨rfl, rfl, rfl, rfl, rfl, rfl, rfl, fun i hi => .inl hi⟩

theorem record_some (hp : s.procs[i]? = some p) (hq : s.procs[own]? = some q) :
    s.record i own pid = { s with returns :=
      ⟨i, pid, p, q, s.stackbot p, s.image q.paged, q.thread.bind (s.threads[·]?)⟩ ::
        s.returns } := by
  simp only [State.record, hp, hq]

/-- The copy is recorded in a thread whose `stackbot` stays. -/
theorem stackbot_set (hth : s.threads[t]? = some th) (hs : s'.threads =
    s.threads.set t { th with copied := c }) (p : Syscalls.Process) :
    s'.stackbot p = s.stackbot p := by
  unfold State.stackbot
  cases p.thread with
  | none => rfl
  | some k =>
    rw [hs, Option.bind_some, Option.bind_some]
    by_cases hkt : t = k
    · subst hkt
      rw [List.getElem?_set_self (List.getElem?_eq_some_iff.mp hth).1, hth]
      rfl
    · rw [List.getElem?_set_ne hkt]

/-- The struct of the child with its thread. -/
def threaded (q : Syscalls.Process) (t : Nat) : Syscalls.Process :=
  { q with thread := some t, threadslen := (q.threadslen + 1) % 2 ^ 8 }

/-- The child has its thread and its stack, and is put on the table. -/
def handedOver (s : State) (i own t b : Nat) (q : Syscalls.Process) : State :=
  State.schedulerAddProcess
    { s.goto i .user with
      threads := s.threads.set t ⟨own, 0, some (b, i)⟩
      procs := s.procs.set own (threaded q t) } own

theorem Forking.finish (hf : Forking s i own p q) (hb : s.stackbot p = some b) (hne : b ≠ 0)
    (ht : s.t = some t) (hth : s.threads[t]? = some ⟨own, 0, none⟩) :
    s.finishFork i own = some ((handedOver s i own t b q).record i own q.pid) := by
  simp only [State.finishFork, hf.parent, hf.child, ht, Option.bind_some, hf.caller, hb, hf.made,
    hth, if_neg hne]
  rfl

/-- The return of the one fork in progress is right. -/
theorem Forking.right (hf : Forking s i own p q) (hb : s.stackbot p = some b)
    (hth : s.threads[t]? = some ⟨own, 0, none⟩) (himg : s.image q.paged = some (i, p.pallocLen)) :
    Right ⟨i, q.pid, p, threaded q t, (handedOver s i own t b q).stackbot p,
      (handedOver s i own t b q).image q.paged,
      (some t).bind ((handedOver s i own t b q).threads[·]?)⟩ := by
  have htlt : t < s.threads.length := (List.getElem?_eq_some_iff.mp hth).1
  obtain ⟨-, hthreads, himage, -⟩ := add_keeps
    { s.goto i .user with
      threads := s.threads.set t ⟨own, 0, some (b, i)⟩
      procs := s.procs.set own (threaded q t) } own
  refine ⟨rfl, hf.execLen, ?_, b, ⟨own, 0, some (b, i)⟩, ?_, ?_, rfl⟩
  · exact (congrFun himage q.paged).trans himg
  · exact (stackbot_set hth hthreads p).trans hb
  · rw [Option.bind_some, handedOver, hthreads]
    exact List.getElem?_set_self htlt

theorem Inv.finish (h : Inv s) (hi : i ∈ s.table) (hpc : s.pc i = .stack own)
    (hs : s.finishFork i own = some s') : Inv s' := by
  have hown : ownChild (s.pc i) = some own := by rw [hpc]; rfl
  obtain ⟨p, q, hf⟩ := h.forking i own hown
  obtain ⟨b, hb, hne⟩ := hf.stackbot
  obtain ⟨t, ht, hth⟩ := hf.thread hpc
  have hio : own ≠ i := by
    rintro rfl
    exact hf.absent hi
  have hlt : own < s.procs.length := (List.getElem?_eq_some_iff.mp hf.made).1
  have hright := hf.right hb hth (hf.image (by rw [hpc]; trivial))
  obtain ⟨hprocs, -, -, hpcs, hesize, hreturns, hstarts, htable⟩ := add_keeps
    { s.goto i .user with
      threads := s.threads.set t ⟨own, 0, some (b, i)⟩
      procs := s.procs.set own (threaded q t) } own
  have hcaller : (handedOver s i own t b q).procs[i]? = some p := by
    rw [handedOver, hprocs]
    exact (List.getElem?_set_ne hio).trans hf.caller
  have hmade : (handedOver s i own t b q).procs[own]? = some (threaded q t) := by
    rw [handedOver, hprocs]
    exact List.getElem?_set_self hlt
  have hsized : (threaded q t).execLen = (threaded q t).pallocLen :=
    h.sized q (List.mem_of_getElem? hf.made)
  rw [hf.finish hb hne ht hth, record_some hcaller hmade, Option.some.injEq] at hs
  subst hs
  refine h.leave hown hpcs ⟨?_, ?_⟩ ?_ ?_ hesize
  · intro r hr
    rcases List.mem_cons.mp hr with rfl | hr
    · exact hright
    · exact h.faithful.returns r (hreturns ▸ hr)
  · exact fun r hr => h.faithful.starts r (hstarts ▸ hr)
  · exact fun r hr => sized_set h.sized hsized r (hprocs ▸ hr)
  · intro j hj
    have hlen : (handedOver s i own t b q).procs.length = s.procs.length := by
      rw [handedOver, hprocs]
      exact List.length_set
    refine lt_of_lt_of_eq ?_ hlen.symm
    rcases htable j hj with hj | rfl
    · exact h.listed j hj
    · exact hlt

/-- A process that is in no fork changes its own struct and fills frames that no
process has; a fork in progress does not see it. -/
theorem Inv.beside (pc : Pc) (h : Inv s) (hi : i ∈ s.table) (hnone : ownChild (s.pc i) = none)
    (hpc : s'.pc = (s.goto i pc).pc) (hnew : ownChild pc = none)
    (hparent : s'.parent = s.parent) (hchild : s'.child = s.child) (ht : s'.t = s.t)
    (hthreads : s'.threads = s.threads) (htable : s'.table = s.table)
    (hprocs : s'.procs = s.procs ∨ ∃ q, q.execLen = q.pallocLen ∧ s'.procs = s.procs.set i q)
    (himage : ∀ q ∈ s.procs, s'.image q.paged = s.image q.paged)
    (hfaith : Faithful s') (hload : ∀ j size n, s'.pc j = .loading size n → s'.esize = size) :
    Inv s' := by
  have hlen : s'.procs.length = s.procs.length := by
    rcases hprocs with h | ⟨q, -, h⟩
    · rw [h]
    · rw [h, List.length_set]
  have hother : ∀ j, j ≠ i → s'.procs[j]? = s.procs[j]? := by
    intro j hj
    rcases hprocs with h | ⟨q, -, h⟩
    · rw [h]
    · rw [h, List.getElem?_set_ne (Ne.symm hj)]
  refine ⟨hfaith, ?_, ?_, ?_, hload⟩
  · rcases hprocs with hp | ⟨q, hq, hp⟩
    · rw [hp]
      exact h.sized
    · rw [hp]
      exact sized_set h.sized hq
  · intro j hj
    rw [hlen]
    exact h.listed j (htable ▸ hj)
  · intro j own hj
    rw [hpc] at hj
    by_cases hji : j = i
    · subst hji
      rw [goto_self, hnew] at hj
      cases hj
    · rw [goto_other hji] at hj
      obtain ⟨p, q, hf⟩ := h.forking j own hj
      have hoi : own ≠ i := by
        rintro rfl
        exact hf.absent hi
      refine ⟨p, q, hf.wait hparent hchild ht hthreads htable ?_ (hother j hji) (hother own hoi)
        (himage q (List.mem_of_getElem? hf.made))⟩
      rw [hpc]
      exact goto_other hji _

theorem Inv.setSize (h : Inv s) (hnone : ∀ j size n, s.pc j ≠ .loading size n) (size : Nat) :
    Inv { s with esize := size } where
  faithful := ⟨h.faithful.returns, h.faithful.starts⟩
  sized := h.sized
  listed := h.listed
  forking := by
    intro i own hi
    obtain ⟨p, q, hf⟩ := h.forking i own hi
    exact ⟨p, q, hf.wait rfl rfl rfl rfl rfl rfl rfl rfl rfl⟩
  loading := fun j size n hj => absurd hj (hnone j size n)

theorem Inv.start (h : Inv s) (hi : i ∈ s.table) (hnone : ownChild (s.pc i) = none)
    (hfresh : Fresh s palloc) (hsize : s.esize = size)
    (hs : s.elfStart i size palloc = some s') : Inv s' := by
  obtain ⟨p, hp⟩ : ∃ p, s.procs[i]? = some p :=
    ⟨_, List.getElem?_eq_getElem (h.listed i hi)⟩
  simp only [State.elfStart, hp, Option.some.injEq] at hs
  subst hs
  refine h.beside .user hi hnone rfl rfl rfl rfl rfl rfl rfl (.inr ⟨_, rfl, rfl⟩) ?_ ⟨?_, ?_⟩ ?_
  · exact fun q hq => Function.update_of_ne (hfresh q hq) _ _
  · exact h.faithful.returns
  · intro r hr
    rcases List.mem_cons.mp hr with rfl | hr
    · exact hsize
    · exact h.faithful.starts r hr
  · intro j size n hj
    by_cases hji : j = i
    · subst hji
      cases (goto_self s j _).symm.trans hj
    · exact h.loading j size n ((goto_other hji _).symm.trans hj)

theorem Inv.execve (h : Inv s) (hi : i ∈ s.table) (hpc : s.pc i = .user)
    (hg : Alone s (.execve i size mallocs palloc))
    (hs : s.sysExecve i size mallocs palloc = some s') : Inv s' := by
  obtain ⟨hnone, hfresh⟩ := hg
  have huser : ownChild (s.pc i) = none := by rw [hpc]; rfl
  have hset := h.setSize hnone size
  unfold State.sysExecve at hs
  split at hs
  · cases hs
    exact h
  · split at hs
    · rename_i hzero
      exact hset.start hi huser (hfresh hzero) rfl hs
    · cases hs
      refine hset.beside (.loading size mallocs) hi huser rfl rfl rfl rfl rfl rfl rfl (.inl rfl)
        (fun _ _ => rfl) ⟨h.faithful.returns, h.faithful.starts⟩ ?_
      intro j size' n hj
      by_cases hji : j = i
      · subst hji
        cases (goto_self _ j _).symm.trans hj
        rfl
      · exact absurd ((goto_other hji _).symm.trans hj) (hnone j size' n)

theorem Inv.resume (h : Inv s) (hi : i ∈ s.table) (hg : Alone s (.resume i palloc))
    (hs : s.resume i palloc = some s') : Inv s' := by
  unfold State.resume at hs
  cases hpc : s.pc i with
  | user => simp [hpc] at hs
  | directory own frames =>
    simp only [hpc, Option.some.injEq] at hs
    subst hs
    have hown : ownChild (s.pc i) = some own := by rw [hpc]; rfl
    exact h.move hown rfl False.elim (by simp)
  | table own frames =>
    simp only [hpc] at hs
    exact h.copy hi hpc hs
  | freeing own =>
    simp only [hpc, Option.some.injEq] at hs
    subst hs
    have hown : ownChild (s.pc i) = some own := by rw [hpc]; rfl
    exact h.move hown rfl (fun _ => by rw [hpc]; trivial) (by simp)
  | thread own =>
    simp only [hpc] at hs
    exact h.makeThread hpc hs
  | stack own =>
    simp only [hpc] at hs
    exact h.finish hi hpc hs
  | loading size n =>
    have hsize := h.loading i size n hpc
    have hnone : ownChild (s.pc i) = none := by rw [hpc]; rfl
    simp only [hpc] at hs
    split at hs
    · rename_i hn
      exact h.start hi hnone (hg size n hpc hn) hsize hs
    · cases hs
      refine h.beside (.loading size (n - 1)) hi hnone rfl rfl rfl rfl rfl rfl rfl (.inl rfl)
        (fun _ _ => rfl) ⟨h.faithful.returns, h.faithful.starts⟩ ?_
      intro j size' m hj
      by_cases hji : j = i
      · subst hji
        cases (goto_self s j _).symm.trans hj
        exact hsize
      · exact h.loading j size' m ((goto_other hji _).symm.trans hj)

theorem Inv.step (h : Inv s) (hg : Alone s op) (hs : s.step op = some s') : Inv s' := by
  unfold State.step at hs
  split at hs
  · rename_i hi
    cases op with
    | fork i palloc =>
      simp only [State.act] at hs
      split at hs
      · exact h.fork hg hs
      · cases hs
    | execve i size mallocs palloc =>
      simp only [State.act] at hs
      split at hs
      · rename_i hpc
        exact h.execve hi hpc hg hs
      · cases hs
    | resume i palloc => exact h.resume hi hg hs
  · cases hs

/-- A process inside a call finds what it needs to go on. -/
theorem Inv.goesOn (h : Inv s) : GoesOn s := by
  intro i hi hpc palloc
  have hstep : s.step (.resume i palloc) = s.resume i palloc := if_pos hi
  rw [hstep, State.resume]
  cases hc : s.pc i with
  | user => exact absurd hc hpc
  | directory own frames => rfl
  | table own frames =>
    obtain ⟨p, q, hf⟩ := h.forking i own (by rw [hc]; rfl)
    simp [State.copyImage, hf.parent, hf.child, hf.caller, hf.made]
  | freeing own => rfl
  | thread own =>
    obtain ⟨p, q, hf⟩ := h.forking i own (by rw [hc]; rfl)
    simp [State.makeThread, hf.child]
  | stack own =>
    obtain ⟨p, q, hf⟩ := h.forking i own (by rw [hc]; rfl)
    obtain ⟨b, hb, hne⟩ := hf.stackbot
    obtain ⟨t, ht, hth⟩ := hf.thread hc
    simp only [hf.finish hb hne ht hth, Option.isSome_some]
  | loading size n =>
    have hlt := h.listed i hi
    simp only
    split
    · simp [State.elfStart, List.getElem?_eq_getElem hlt]
    · rfl

/-- No call is in progress, and every process is as its image left it. -/
structure Idle (s : State) : Prop where
  pc : ∀ i, s.pc i = .user
  sized : ∀ p ∈ s.procs, p.execLen = p.pallocLen
  listed : ∀ i ∈ s.table, i < s.procs.length
  returns : s.returns = []
  starts : s.starts = []

theorem Idle.inv (h : Idle s) : Inv s where
  faithful := ⟨by simp [h.returns], by simp [h.starts]⟩
  sized := h.sized
  listed := h.listed
  forking := by
    intro i own hi
    rw [h.pc i] at hi
    cases hi
  loading := by
    intro i size n hi
    cases (h.pc i).symm.trans hi

/-- In every interleaving in which no two forks and no two `sys_execve` overlap,
every `sys_fork` returns its own child, made from its own caller, and every
`elf_start` is given the size of its own caller's file. -/
theorem calls_faithful (s : State) (hs : Idle s) (ops : List Op)
    (hg : Guarded State.step Alone s ops) :
    Throughout State.step (fun s => Faithful s ∧ GoesOn s) s ops :=
  (throughout_of_guarded hs.inv (fun _ _ _ h hg hs => h.step hg hs) hg).mono
    (fun _ h => ⟨h.faithful, h.goesOn⟩)

/-- Two processes with images of 10 and 20 bytes, neither of them forked. -/
def twoCallers : State where
  procs := [⟨1, 10, 10, 100, 100, some 0, 1⟩, ⟨2, 20, 20, 200, 200, some 1, 1⟩]
  threads := [⟨0, 4096, none⟩, ⟨1, 8192, none⟩]
  table := [0, 1]
  lastpid := 3
  parent := none
  child := none
  t := none
  esize := 0
  pc := fun _ => .user
  image := fun _ => none
  returns := []
  starts := []

theorem two_callers_idle : Idle twoCallers :=
  ⟨fun _ => rfl, by simp [twoCallers], by simp [twoCallers], rfl, rfl⟩

/-- The second process loads an image while the first one forks. -/
def besideRun : List Op :=
  [.fork 0 300, .execve 1 50 1 0, .resume 0 0, .resume 1 400, .resume 0 0, .resume 0 0,
    .resume 0 0, .resume 0 0]

theorem calls_faithful_beside :
    Idle twoCallers ∧ Guarded State.step Alone twoCallers besideRun ∧
      Throughout State.step (fun s => Faithful s ∧ GoesOn s) twoCallers besideRun := by
  have hguard : Guarded State.step Alone twoCallers besideRun := by
    refine .cons rfl ⟨fun _ => rfl, _, _, rfl, rfl, by decide⟩ ?_
    refine .cons rfl ⟨?_, fun h => absurd h (by decide)⟩ ?_
    · intro j size n hj
      by_cases hj0 : j = 0
      · subst hj0
        cases hj
      · cases (goto_other hj0 _).symm.trans hj
    refine .cons rfl (fun _ _ h => by cases h) ?_
    refine .cons rfl (fun _ _ _ _ => by decide) ?_
    refine .cons rfl (fun _ _ h => by cases h) ?_
    refine .cons rfl (fun _ _ h => by cases h) ?_
    refine .cons rfl (fun _ _ h => by cases h) ?_
    exact .single (fun _ _ h => by cases h)
  exact ⟨two_callers_idle, hguard, calls_faithful twoCallers two_callers_idle besideRun hguard⟩

/-- Both processes fork and take turns. -/
def forkRace : List Op :=
  [.fork 0 300, .fork 1 400, .resume 0 0, .resume 1 0, .resume 0 0, .resume 1 0, .resume 0 0,
    .resume 1 0, .resume 0 0, .resume 1 0, .resume 0 0]

/-- Both processes load images, of 50 and of 70 bytes, and take turns. -/
def execveRace : List Op := [.execve 0 50 1 0, .execve 1 70 1 0, .resume 0 300]

/-- The first fork returns the child of the second, and the first `elf_start` is
given the size of the second file. -/
theorem calls_mixed_up :
    (∃ s r, run State.step twoCallers forkRace = some s ∧ r ∈ s.returns ∧ r.caller = 0 ∧
      r.pid = 4 ∧ r.own.pid = 3 ∧ ¬ Faithful s) ∧
    (∃ s, run State.step twoCallers execveRace = some s ∧ s.starts = [⟨0, 50, 70⟩] ∧
      ¬ Faithful s) := by
  refine ⟨⟨_, _, rfl, List.mem_cons_self, rfl, rfl, rfl, ?_⟩, ⟨_, rfl, rfl, ?_⟩⟩
  · intro h
    exact absurd (h.returns _ List.mem_cons_self).pid (by decide)
  · intro h
    exact absurd (h.starts _ List.mem_cons_self) (by decide)

end Levos.Proofs.Syscalls
