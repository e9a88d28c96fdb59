import Levos.Console

namespace Levos.Proofs.Console
open Library

variable {heap : Growth} {s t : KernelLog}

/-- The log holds what was appended, and every store was into the block. -/
structure Recorded (s : KernelLog) : Prop where
  text : slice s.kmsg 0 s.kmsgPos = s.appended
  stores : ∀ a ∈ s.stores, a.1 < a.2

/-- What the log owes its readers. -/
structure Logged (s : KernelLog) : Prop extends Recorded s where
  first : ∀ c, s.consoles.head? = some c → s.deliveredTo c = slice s.kmsg 0 s.kmsgLastFlush
  later : ∀ a ∈ s.added, s.deliveredTo a.1 = slice s.kmsg a.2 (s.kmsgLastFlush - a.2)

/-- A console is not added while it is registered, unless the call is refused
because the table is full. -/
def AddedOnce (s : KernelLog) : ConsoleAct → Prop
  | .add (some c) => c ∈ s.consoles → maxConsoles ≤ s.consoles.length
  | _ => True

structure Written (s : KernelLog) : Prop extends Recorded s where
  flushed : s.kmsgLastFlush ≤ s.kmsgPos
  room : s.kmsgPos ≤ s.size
  sized : kmsgBufSize ≤ s.size
  /-- From 65536 characters on every character makes the block grow. -/
  grown : s.size = kmsgBufSize ∨ s.size < s.kmsgPos + kmsgBufSize
  /-- `kmsg_pos` is an `int`, and never overflows. -/
  small : s.kmsgPos < 2 ^ 31

structure Kept (s : KernelLog) : Prop extends Written s where
  registered : s.consoles = s.added.map Prod.fst
  distinct : s.consoles.Nodup
  known : ∀ d ∈ s.delivered, d.1 ∈ s.consoles
  received : ∀ a ∈ s.added, a.2 ≤ s.kmsgLastFlush ∧
    s.deliveredTo a.1 = slice s.kmsg a.2 (s.kmsgLastFlush - a.2)
  first : ∀ a, s.added.head? = some a → a.2 = 0
  silent : s.consoles = [] → s.kmsgLastFlush = 0

theorem init_kept (kmsg : Nat → UInt8) : Kept (consoleInit kmsg) where
  text := rfl
  flushed := Nat.le_refl 0
  room := Nat.zero_le _
  sized := Nat.le_refl _
  grown := .inl rfl
  small := show 0 < 2 ^ 31 by decide
  stores := by simp [consoleInit]
  registered := rfl
  distinct := List.nodup_nil
  known := by simp [consoleInit]
  received := by simp [consoleInit]
  first := by simp [consoleInit]
  silent _ := rfl

theorem Kept.logged (h : Kept s) : Logged s where
  toRecorded := h.toRecorded
  first c hc := by
    rw [h.registered, List.head?_map] at hc
    obtain ⟨a, ha, rfl⟩ := Option.map_eq_some_iff.mp hc
    have hreceived := (h.received a (List.mem_of_head? ha)).2
    rwa [h.first a ha] at hreceived
  later a ha := (h.received a ha).2

/-- A character that is appended goes to a place inside the block, and what is in
front of it is as before. -/
theorem append_cases (h : Written s) (ht : consoleAppend heap s c = some t) :
    ∃ mem size, t = KernelLog.store { s with kmsg := mem, size := size } c ∧
      (∀ i < s.kmsgPos, mem i = s.kmsg i) ∧ s.kmsgPos < size ∧ kmsgBufSize ≤ size ∧
      (size = kmsgBufSize ∨ size ≤ s.kmsgPos + kmsgBufSize) ∧ s.kmsgPos + 1 < 2 ^ 31 := by
  have hbuf : kmsgBufSize = 65536 := rfl
  have hroom := h.room
  have hgrown := h.grown
  unfold consoleAppend at ht
  split at ht
  case isTrue hfull =>
    split at ht
    case isTrue hserved =>
      cases ht
      have hboth := heap.both _ _ (by omega) hserved
      refine ⟨_, _, rfl, ?_, by omega, by omega, .inr (Nat.le_refl _), by omega⟩
      intro i hi
      exact if_pos (Nat.lt_of_lt_of_le hi hroom)
    case isFalse => cases ht
  case isFalse hfree =>
    cases ht
    have hsized := h.sized
    exact ⟨s.kmsg, s.size, rfl, fun _ _ => rfl, by omega, hsized, by omega, by omega⟩

/-- Text in front of the end is as it was after a character has been stored. -/
theorem stored_slice {mem : Nat → UInt8} (hm : ∀ i < pos, mem i = old i) (hn : a + n ≤ pos)
    (c : UInt8) : slice (Function.update mem pos c) a n = slice old a n := by
  refine slice_congr ?_
  intro i hi
  rw [Function.update_of_ne (by omega), hm (a + i) (by omega)]

theorem append_written (h : Written s) (ht : consoleAppend heap s c = some t) : Written t := by
  obtain ⟨mem, size, rfl, hsame, hroom, hsized, hgrown, hsmall⟩ := append_cases h ht
  refine ⟨⟨?_, ?_⟩, Nat.le_succ_of_le h.flushed, hroom, hsized, ?_, hsmall⟩
  · show slice (Function.update mem s.kmsgPos c) 0 (s.kmsgPos + 1) = s.appended ++ [c]
    rw [slice_append, stored_slice hsame (by omega), h.text]
    simp [slice]
  · intro a ha
    rcases List.mem_append.mp ha with hold | hnew
    · exact h.stores a hold
    · rw [List.mem_singleton.mp hnew]
      exact hroom
  · show size = kmsgBufSize ∨ size < s.kmsgPos + 1 + kmsgBufSize
    omega

theorem append_kept (h : Kept s) (ht : consoleAppend heap s c = some t) : Kept t := by
  have hwritten := append_written h.toWritten ht
  obtain ⟨mem, size, rfl, hsame, -⟩ := append_cases h.toWritten ht
  refine ⟨hwritten, h.registered, h.distinct, h.known, ?_, h.first, h.silent⟩
  intro a ha
  have hflushed := h.flushed
  obtain ⟨hle, hreceived⟩ := h.received a ha
  refine ⟨hle, ?_⟩
  show s.deliveredTo a.1 = slice (Function.update mem s.kmsgPos c) a.2 (s.kmsgLastFlush - a.2)
  rw [stored_slice hsame (by omega)]
  exact hreceived

/-- What every character keeps, a text keeps. -/
theorem append_all_keeps {P : KernelLog → Prop}
    (hp : ∀ s t c, P s → consoleAppend heap s c = some t → P t) (h : P s)
    (ht : appendAll heap s str = some t) : P t := by
  induction str generalizing s with
  | nil =>
    cases ht
    exact h
  | cons c str ih =>
    unfold appendAll at ht
    split at ht
    · cases ht
    · rename_i u hu
      exact ih (hp s u c h hu) ht

/-- Each of the registered consoles gets the text once. -/
theorem flush_delivered (hn : s.consoles.Nodup) (hc : c ∈ s.consoles) :
    (consoleFlush s).deliveredTo c = s.deliveredTo c ++ s.unflushed := by
  have honce : s.consoles.filter (fun d => d == c) = [c] := by
    rw [List.filter_beq, List.count_eq_one_of_mem hn hc, List.replicate_one]
  simp [KernelLog.deliveredTo, consoleFlush, List.filter_map, Function.comp_def, honce]

theorem flush_written (h : Written s) : Written (consoleFlush s) := by
  refine ⟨⟨h.text, h.stores⟩, ?_, h.room, h.sized, h.grown, h.small⟩
  simp only [consoleFlush]
  split
  · exact Nat.le_refl _
  · exact h.flushed

theorem flush_kept (h : Kept s) : Kept (consoleFlush s) := by
  have hflushed := h.flushed
  refine ⟨flush_written h.toWritten, h.registered, h.distinct, ?_, ?_, h.first, ?_⟩
  · intro d hd
    rcases List.mem_append.mp hd with hold | hnew
    · exact h.known d hold
    · obtain ⟨c, hc, rfl⟩ := List.mem_map.mp hnew
      exact hc
  · intro a ha
    have hmem : a.1 ∈ s.consoles := by
      rw [h.registered]
      exact List.mem_map_of_mem ha
    have hsome : s.consoles.length ≠ 0 := List.length_pos_of_mem hmem |>.ne'
    obtain ⟨hle, hreceived⟩ := h.received a ha
    have hlast : (consoleFlush s).kmsgLastFlush = s.kmsgPos := if_pos hsome
    -- what it had, up to the last flush, and what is new since
    have hsplit := slice_append s.kmsg a.2 (s.kmsgLastFlush - a.2) (s.kmsgPos - s.kmsgLastFlush)
    rw [show s.kmsgLastFlush - a.2 + (s.kmsgPos - s.kmsgLastFlush) = s.kmsgPos - a.2 by omega,
      Nat.add_sub_cancel' hle] at hsplit
    rw [hlast]
    refine ⟨by omega, ?_⟩
    rw [flush_delivered h.distinct hmem, hreceived]
    exact hsplit.symm
  · intro hnone
    have hnone : s.consoles = [] := hnone
    simp only [consoleFlush, hnone, List.length_nil, ne_eq, not_true_eq_false, if_false]
    exact h.silent hnone

/-- A console that was never registered has received nothing. -/
theorem Kept.unheard (h : Kept s) (hc : c ∉ s.consoles) : s.deliveredTo c = [] := by
  have hnone : s.delivered.filter (fun d => d.1 == c) = [] := by
    rw [List.filter_eq_nil_iff]
    intro d hd heq
    exact hc (beq_iff_eq.mp heq ▸ h.known d hd)
  rw [KernelLog.deliveredTo, hnone]
  rfl

theorem add_written (h : Written s) (c : Option Nat) : Written (consoleAdd s c).2 := by
  cases c with
  | none => exact h
  | some c =>
    rw [consoleAdd]
    split
    · exact h
    · exact ⟨⟨h.text, h.stores⟩, h.flushed, h.room, h.sized, h.grown, h.small⟩

theorem add_kept (h : Kept s) (hc : AddedOnce s (.add c)) : Kept (consoleAdd s c).2 := by
  cases c with
  | none => exact h
  | some c =>
    by_cases hfull : s.consoles.length ≥ maxConsoles
    · rwa [consoleAdd, if_pos hfull]
    · have hnew : c ∉ s.consoles := fun hm => hfull (hc hm)
      have hwritten := add_written h.toWritten (some c)
      rw [consoleAdd, if_neg hfull] at hwritten ⊢
      refine ⟨hwritten, ?_, ?_, ?_, ?_, ?_, ?_⟩
      · simp [h.registered]
      · exact List.nodup_append.mpr ⟨h.distinct, List.nodup_singleton c,
          fun a ha b hb hab => hnew (List.mem_singleton.mp hb ▸ hab ▸ ha)⟩
      · intro d hd
        exact List.mem_append_left _ (h.known d hd)
      · intro a ha
        rcases List.mem_append.mp ha with hold | hlast
        · exact h.received a hold
        · cases List.mem_singleton.mp hlast
          refine ⟨Nat.le_refl _, ?_⟩
          show s.deliveredTo c = slice s.kmsg s.kmsgLastFlush (s.kmsgLastFlush - s.kmsgLastFlush)
          rw [h.unheard hnew, Nat.sub_self]
          rfl
      · intro a ha
        have hregistered := h.registered
        cases hadded : s.added with
        | nil =>
          rw [hadded] at hregistered ha
          cases ha
          exact h.silent hregistered
        | cons b bs =>
          refine h.first a ?_
          rw [hadded] at ha ⊢
          exact ha
      · intro hnone
        exact absurd hnone (List.append_ne_nil_of_right_ne_nil _ (List.cons_ne_nil c []))

theorem step_written (h : Written s) (ht : KernelLog.step heap s a = some t) : Written t := by
  cases a with
  | add c =>
    cases ht
    exact add_written h c
  | append c => exact append_written h ht
  | write str =>
    obtain ⟨u, hu, rfl⟩ := Option.map_eq_some_iff.mp ht
    exact flush_written (append_all_keeps (fun _ _ _ => append_written) h hu)

theorem step_kept (h : Kept s) (hc : AddedOnce s a) (ht : KernelLog.step heap s a = some t) :
    Kept t := by
  cases a with
  | add c =>
    cases ht
    exact add_kept h hc
  | append c => exact append_kept h ht
  | write str =>
    obtain ⟨u, hu, rfl⟩ := Option.map_eq_some_iff.mp ht
    exact flush_kept (append_all_keeps (fun _ _ _ => append_kept) h hu)

/-- Over every sequence of calls the log holds what was appended, with every store in the
block, and if no console is registered twice each gets its text once. -/
theorem log_delivered (heap : Growth) (kmsg : Nat → UInt8) (acts : List ConsoleAct) :
    Throughout (KernelLog.step heap) Recorded (consoleInit kmsg) acts ∧
      (Guarded (KernelLog.step heap) AddedOnce (consoleInit kmsg) acts →
        Throughout (KernelLog.step heap) Logged (consoleInit kmsg) acts) := by
  constructor
  · refine (throughout_of_guarded (G := fun _ _ => True) (init_kept kmsg).toWritten
      (fun _ _ _ h _ ht => step_written h ht) ?_).mono (fun _ h => h.toRecorded)
    exact .of_forall (fun _ _ _ => trivial) _
  · intro ha
    exact (throughout_of_guarded (init_kept kmsg) (fun _ _ _ h hc ht => step_kept h hc ht) ha).mono
      (fun _ h => h.logged)

/-- A heap that serves every growth that fits. -/
def roomyHeap : Growth where
  served old new := decide (old + new ≤ 2 ^ 32)
  fresh _ _ := 0
  both _ _ _ h := of_decide_eq_true h

theorem log_delivered_two_consoles :
    Guarded (KernelLog.step roomyHeap) AddedOnce (consoleInit (fun _ => 0))
      [.write [104], .add (some 1), .write [105], .add (some 2), .append 33, .write []] ∧
    Throughout (KernelLog.step roomyHeap) Logged (consoleInit (fun _ => 0))
      [.write [104], .add (some 1), .write [105], .add (some 2), .append 33, .write []] := by
  have ha : Guarded (KernelLog.step roomyHeap) AddedOnce (consoleInit (fun _ => 0))
      [.write [104], .add (some 1), .write [105], .add (some 2), .append 33, .write []] := by
    exact ⟨trivial, fun hm => absurd hm (by decide), trivial, fun hm => absurd hm (by decide),
      trivial, trivial, trivial⟩
  exact ⟨ha, (log_delivered _ _ _).2 ha⟩

/-- A console that is added twice gets every text twice. -/
theorem console_added_twice :
    ∃ acts, ¬ Throughout (KernelLog.step roomyHeap) Logged (consoleInit (fun _ => 0)) acts := by
  refine ⟨[.add (some 1), .add (some 1), .write [97]], ?_⟩
  intro h
  have hlast := h.last rfl
  have hfirst := hlast.first 1 rfl
  revert hfirst
  decide

/-- The characters some calls append. -/
def appendedBy (acts : List ConsoleAct) : Bytes :=
  acts.flatMap fun
    | .add _ => []
    | .append c => [c]
    | .write str => str

/-- Two logs that grow in the same way, whoever has been told about it. -/
structure Alike (s t : KernelLog) : Prop where
  kmsgPos : s.kmsgPos = t.kmsgPos
  size : s.size = t.size
  appended : s.appended = t.appended

theorem Alike.store (h : Alike s t) (c : UInt8) : Alike (s.store c) (t.store c) where
  kmsgPos := congrArg (· + 1) h.kmsgPos
  size := h.size
  appended := congrArg (· ++ [c]) h.appended

theorem append_alike (heap : Growth) (h : Alike s t) (c : UInt8) :
    Option.Rel Alike (consoleAppend heap s c) (consoleAppend heap t c) := by
  unfold consoleAppend
  rw [h.kmsgPos, h.size]
  split
  · split
    · refine .some (Alike.store ?_ c)
      exact ⟨rfl, rfl, h.appended⟩
    · exact .none
  · exact .some (h.store c)

theorem append_all_alike (heap : Growth) (h : Alike s t) (str : Bytes) :
    Option.Rel Alike (appendAll heap s str) (appendAll heap t str) := by
  induction str generalizing s t with
  | nil => exact .some h
  | cons c str ih =>
    have hone := append_alike heap h c
    unfold appendAll
    generalize consoleAppend heap s c = x, consoleAppend heap t c = y at hone ⊢
    cases hone with
    | none => exact .none
    | some hnext => exact ih hnext

theorem append_all_append (s : KernelLog) (as bs : Bytes) :
    appendAll heap s (as ++ bs) = (appendAll heap s as).bind (fun t => appendAll heap t bs) := by
  induction as generalizing s with
  | nil => rfl
  | cons c as ih =>
    simp only [List.cons_append, appendAll]
    cases consoleAppend heap s c with
    | none => rfl
    | some t => exact ih t

/-- Whether it flushes or registers a console, an act stores its characters only. -/
theorem step_alike (heap : Growth) (h : Alike s t) (a : ConsoleAct) :
    Option.Rel Alike (KernelLog.step heap s a) (appendAll heap t (appendedBy [a])) := by
  cases a with
  | add c =>
    refine .some ?_
    cases c with
    | none => exact h
    | some c =>
      simp only [consoleAdd]
      split
      · exact h
      · exact ⟨h.kmsgPos, h.size, h.appended⟩
  | append c =>
    have hone := append_alike heap h c
    show Option.Rel Alike (consoleAppend heap s c) (appendAll heap t [c])
    unfold appendAll
    generalize consoleAppend heap s c = x, consoleAppend heap t c = y at hone ⊢
    cases hone with
    | none => exact .none
    | some hnext => exact .some hnext
  | write str =>
    have hstr : appendedBy [.write str] = str := List.append_nil str
    have hall := append_all_alike heap h str
    rw [hstr]
    show Option.Rel Alike ((appendAll heap s str).map consoleFlush) (appendAll heap t str)
    generalize appendAll heap s str = x, appendAll heap t str = y at hall ⊢
    cases hall with
    | none => exact .none
    | some hwritten => exact .some ⟨hwritten.kmsgPos, hwritten.size, hwritten.appended⟩

theorem run_alike (heap : Growth) (h : Alike s t) (acts : List ConsoleAct) :
    Option.Rel Alike (run (KernelLog.step heap) s acts) (appendAll heap t (appendedBy acts)) := by
  induction acts generalizing s t with
  | nil => exact .some h
  | cons a acts ih =>
    have hsplit : appendedBy (a :: acts) = appendedBy [a] ++ appendedBy acts := by
      simp [appendedBy]
    have hone := step_alike heap h a
    rw [hsplit, append_all_append]
    unfold run
    generalize KernelLog.step heap s a = x, appendAll heap t (appendedBy [a]) = y at hone ⊢
    cases hone with
    | none => exact .none
    | some hstep => exact ih hstep

theorem append_all_appended (h : appendAll heap s str = some t) :
    t.appended = s.appended ++ str := by
  induction str generalizing s with
  | nil =>
    cases h
    exact (List.append_nil _).symm
  | cons c str ih =>
    unfold appendAll at h
    split at h
    · cases h
    · rename_i u hu
      have hone : u.appended = s.appended ++ [c] := by
        unfold consoleAppend at hu
        split at hu
        · split at hu
          · cases hu
            rfl
          · cases hu
        · cases hu
          rfl
      rw [ih h, hone, List.append_assoc, List.singleton_append]

/-- The log gets the characters of the acts, if the heap serves them one after another. -/
theorem log_appends (heap : Growth) (s : KernelLog) (acts : List ConsoleAct) :
    (run (KernelLog.step heap) s acts).map KernelLog.appended =
      (appendAll heap s (appendedBy acts)).map (fun _ => s.appended ++ appendedBy acts) := by
  have hrel := run_alike heap (s := s) ⟨rfl, rfl, rfl⟩ acts
  cases hall : appendAll heap s (appendedBy acts) with
  | none =>
    rw [hall] at hrel
    generalize run (KernelLog.step heap) s acts = x at hrel ⊢
    cases hrel with
    | none => rfl
  | some t =>
    rw [hall] at hrel
    generalize run (KernelLog.step heap) s acts = x at hrel ⊢
    cases hrel with
    | some halike => exact congrArg some (halike.appended.trans (append_all_appended hall))

end Levos.Proofs.Console
