import Levos.Library.Words
import Levos.Printk
import Levos.Proofs.Console
import Levos.Proofs.Entries
import Levos.Proofs.Itoa

namespace Levos.Proofs.Printk
open Library Levos.Proofs.Console Levos.Proofs.Entries Levos.Proofs.Itoa

/-- A character of a format or one of its conversions, with the argument it takes. -/
inductive Piece
  | lit (c : UInt8)
  | str (s : CString)
  | dec (n : UInt32)
  | hex (n : UInt32)

/-- A format in which every '%' stands before s, d or x, with the arguments that match it. -/
inductive Matching : Bytes → List PrintkArg → List Piece → Prop
  | nil : Matching [] [] []
  | lit {fmt args ps} (c : UInt8) (hc : c ≠ 37) (h : Matching fmt args ps) :
      Matching (c :: fmt) args (.lit c :: ps)
  | str {fmt args ps} (s : CString) (h : Matching fmt args ps) :
      Matching (37 :: 115 :: fmt) (.str s :: args) (.str s :: ps)
  | dec {fmt args ps} (n : UInt32) (h : Matching fmt args ps) :
      Matching (37 :: 100 :: fmt) (.int n :: args) (.dec n :: ps)
  | hex {fmt args ps} (n : UInt32) (h : Matching fmt args ps) :
      Matching (37 :: 120 :: fmt) (.int n :: args) (.hex n :: ps)

/-- The decimal numeral of an `int`. -/
def signedNumeral (n : UInt32) : Bytes :=
  if n.toInt32.toInt < 0 then 45 :: numeral 10 n.toInt32.toInt.natAbs
  else numeral 10 n.toInt32.toInt.natAbs

/-- What a piece stands for. -/
def Piece.text : Piece → Bytes
  | .lit c => [c]
  | .str s => s.bytes
  | .dec n => signedNumeral n
  | .hex n => numeral 16 n.toNat

/-- What `printk` writes for it. -/
def Piece.written : Piece → Bytes
  | .lit c => [c]
  | .str s => s.bytes
  | .dec n => numeral 10 n.toNat
  | .hex n => numeral 16 n.toNat

def timestamp (ticks : UInt32) : Bytes :=
  [91] ++ List.replicate (8 - (numeral 10 ticks.toNat).length) 48 ++ numeral 10 ticks.toNat ++
    [93, 32]

/-- The string that is found in the local buffer is the numeral. -/
theorem itoa_text (p : Printing) (n base : UInt32) (hb : 1 < base.toNat)
    (hb' : base.toNat ≤ 16) (hlong : 2 ^ 32 ≤ base.toNat ^ 31) :
    ∃ tbuf, p.itoa n base = some (numeral base.toNat n.toNat, { p with tbuf }) := by
  obtain ⟨r, hr, -, hbuf⟩ := itoa_writes hb hb' p.tbuf n (fun _ => 0)
  refine ⟨r.tbuf, ?_⟩
  have hlen : (numeral base.toNat n.toNat).length ≤ 31 :=
    numeral_length hb (by omega) (Nat.lt_of_lt_of_le n.toNat_lt hlong)
  have hzero : 0 ∉ numeral base.toNat n.toNat := fun h => (mem_numeral hb hb' h).1 rfl
  have hslice : slice r.buf 0 32 = numeral base.toNat n.toNat ++
      0 :: slice r.buf ((numeral base.toNat n.toNat).length + 1)
        (31 - (numeral base.toNat n.toNat).length) := by
    have hsplit := slice_append r.buf 0 ((numeral base.toNat n.toNat).length + 1)
      (31 - (numeral base.toNat n.toNat).length)
    have hfirst := slice_blit (fun _ => 0) 0 (numeral base.toNat n.toNat ++ [0])
    rw [← hbuf, List.length_append, List.length_singleton] at hfirst
    rw [hfirst, Nat.zero_add, List.append_assoc] at hsplit
    have hsum : (numeral base.toNat n.toNat).length + 1 +
        (31 - (numeral base.toNat n.toNat).length) = 32 := by omega
    rw [hsum] at hsplit
    exact hsplit
  have htext : cstr (slice r.buf 0 32) = numeral base.toNat n.toNat := by
    rw [hslice, cstr_append _ _ hzero, cstr, List.takeWhile_cons_of_neg (by simp),
      List.append_nil]
  rw [Printing.itoa, hr]
  simp only [htext]

theorem appended_by_append (as bs : List ConsoleAct) :
    appendedBy (as ++ bs) = appendedBy as ++ appendedBy bs := List.flatMap_append

theorem appended_by_write (str : Bytes) : appendedBy [.write str] = str :=
  List.append_nil str

theorem appended_by_zeros (n : Nat) :
    appendedBy (List.replicate n (.append 48)) = List.replicate n 48 := by
  induction n with
  | zero => rfl
  | succ n ih => exact congrArg (48 :: ·) ih

theorem appended_by_call (p : Printing) (a : ConsoleAct) :
    appendedBy (p.call a).acts = appendedBy p.acts ++ appendedBy [a] :=
  appended_by_append p.acts [a]

theorem print_ticks (p : Printing) (ticks : UInt32) :
    ∃ q, printTicks p ticks = some q ∧ q.args = p.args ∧
      appendedBy q.acts = appendedBy p.acts ++ timestamp ticks := by
  obtain ⟨tbuf, htext⟩ := itoa_text (p.call (.append 91)) ticks 10 (by decide) (by decide)
    (by decide)
  let zeros : List ConsoleAct := List.replicate (8 - (numeral 10 ticks.toNat).length) (.append 48)
  let closed : List ConsoleAct := [.write (numeral 10 ticks.toNat), .write [93, 32]]
  refine ⟨{ p.call (.append 91) with acts := (p.call (.append 91)).acts ++ zeros ++ closed, tbuf },
    ?_, rfl, ?_⟩
  · rw [printTicks, htext]
    rfl
  · have hopen : appendedBy [.append 91] = [91] := rfl
    have hclosed : appendedBy closed = numeral 10 ticks.toNat ++ [93, 32] := rfl
    simp only [appended_by_append, appended_by_call, appended_by_zeros, zeros, hopen, hclosed,
      timestamp, List.append_assoc]

theorem print_numeral {p : Printing} (hp : p.args = .int n :: args) (base : UInt32)
    (hb : 1 < base.toNat) (hb' : base.toNat ≤ 16) (hlong : 2 ^ 32 ≤ base.toNat ^ 31) :
    ∃ q, printNumeral p base = some q ∧ q.args = args ∧
      appendedBy q.acts = appendedBy p.acts ++ numeral base.toNat n.toNat := by
  have harg : p.vaInt = some (n, { p with args }) := by rw [Printing.vaInt, hp]
  obtain ⟨tbuf, htext⟩ := itoa_text { p with args } n base hb hb' hlong
  refine ⟨Printing.call { p with args, tbuf } (.write (numeral base.toNat n.toNat)), ?_, rfl, ?_⟩
  · simp only [printNumeral, harg, htext]
  · rw [appended_by_call, appended_by_write]

theorem print_string {p : Printing} (hp : p.args = .str s :: args) :
    ∃ q, printString p = some q ∧ q.args = args ∧
      appendedBy q.acts = appendedBy p.acts ++ s.bytes := by
  have harg : p.vaStr = some (s, { p with args }) := by rw [Printing.vaStr, hp]
  refine ⟨Printing.call { p with args } (.write s.bytes), ?_, rfl, ?_⟩
  · rw [printString, harg, Option.map_some]
  · rw [appended_by_call, appended_by_write]

theorem char_at {bytes : Bytes} (h : bytes.drop i = c :: rest) :
    i < bytes.length ∧ bytes.getD i 0 = c ∧ bytes.drop (i + 1) = rest := by
  have hlt : i < bytes.length := by
    rw [← List.drop_eq_nil_iff.not.trans Nat.not_le, h]
    exact List.cons_ne_nil c rest
  rw [List.drop_eq_getElem_cons hlt, List.cons.injEq] at h
  exact ⟨hlt, by rw [List.getD_eq_getElem bytes 0 hlt, h.1], h.2⟩

/-- From any place in the format where `bs` follows, the loop writes the pieces it stands for. -/
def LoopWrites (fmt : CString) (bs : Bytes) (args : List PrintkArg) (ps : List Piece) : Prop :=
  ∀ fuel i p, fmt.bytes.drop i = bs → bs.length < fuel → p.args = args →
    ∃ q, printkLoop fmt fuel i p = some q ∧
      appendedBy q.acts = appendedBy p.acts ++ ps.flatMap Piece.written

theorem LoopWrites.convert {fmt : CString} {print : Printing → Option Printing}
    (h : LoopWrites fmt bs args ps)
    (hprint : ∀ p, p.args = arg :: args → ∃ q, print p = some q ∧ q.args = args ∧
      appendedBy q.acts = appendedBy p.acts ++ piece.written)
    (hloop : ∀ fuel i p, fmt.bytes.getD (i + 1) 0 = k → i < fmt.bytes.length →
      fmt.bytes.getD i 0 = 37 →
      printkLoop fmt (fuel + 1) i p = (print p).bind (printkLoop fmt fuel (i + 2))) :
    LoopWrites fmt (37 :: k :: bs) (arg :: args) (piece :: ps) := by
  rintro (_ | fuel) i p hi hf hp
  · cases hf
  · obtain ⟨hlt, hpercent, hnext⟩ := char_at hi
    obtain ⟨-, hk, hrest⟩ := char_at hnext
    have hfuel : bs.length < fuel := by
      rw [List.length_cons, List.length_cons] at hf
      omega
    obtain ⟨q, hq, hargs, hout⟩ := hprint p hp
    obtain ⟨r, hr, happ⟩ := h fuel (i + 2) q hrest hfuel hargs
    refine ⟨r, by rw [hloop fuel i p hk hlt hpercent, hq, Option.bind_some, hr], ?_⟩
    rw [happ, hout, List.append_assoc, List.flatMap_cons]

theorem printk_loop_writes {fmt : CString} (h : Matching bs args ps) :
    LoopWrites fmt bs args ps := by
  induction h with
  | nil =>
    rintro (_ | fuel) i p hi hf hp
    · cases hf
    · have hend : ¬ i < fmt.bytes.length := Nat.not_lt.mpr (List.drop_eq_nil_iff.mp hi)
      exact ⟨p, by rw [printkLoop, if_neg hend], (List.append_nil _).symm⟩
  | lit c hc _ ih =>
    rintro (_ | fuel) i p hi hf hp
    · cases hf
    · obtain ⟨hlt, hat, hnext⟩ := char_at hi
      obtain ⟨q, hq, happ⟩ := ih fuel (i + 1) (p.call (.write [c])) hnext
        (Nat.lt_of_succ_lt_succ hf) hp
      refine ⟨q, by rw [printkLoop, if_pos hlt, hat, if_neg hc, hq], ?_⟩
      rw [happ, appended_by_call, appended_by_write, List.append_assoc]
      rfl
  | str s _ ih =>
    refine ih.convert (fun p hp => print_string hp) ?_
    intro fuel i p hs hlt hpercent
    rw [printkLoop, if_pos hlt, if_pos hpercent, if_pos hs]
  | dec n _ ih =>
    refine ih.convert (fun p hp => print_numeral hp 10 (by decide) (by decide) (by decide)) ?_
    intro fuel i p hd hlt hpercent
    rw [printkLoop, if_pos hlt, if_pos hpercent, hd, if_neg (by decide), if_pos rfl]
  | hex n _ ih =>
    refine ih.convert (fun p hp => print_numeral hp 16 (by decide) (by decide) (by decide)) ?_
    intro fuel i p hx hlt hpercent
    rw [printkLoop, if_pos hlt, if_pos hpercent, hx, if_neg (by decide), if_neg (by decide),
      if_pos rfl]

theorem printk_writes (h : Matching fmt.bytes args ps) (ticks : UInt32) (tbuf : Nat → UInt8) :
    ∃ acts, printk true ticks fmt args tbuf = some acts ∧
      appendedBy acts = timestamp ticks ++ ps.flatMap Piece.written := by
  obtain ⟨p, hp, hargs, hticks⟩ := print_ticks ⟨[], args, tbuf⟩ ticks
  obtain ⟨q, hq, hout⟩ := printk_loop_writes h (fmt.bytes.length + 1) 0 p rfl
    (Nat.lt_succ_self _) hargs
  refine ⟨q.acts, ?_, ?_⟩
  · rw [printk, if_pos rfl, hp, Option.bind_some, hq, Option.map_some]
  · rw [hout, hticks]
    rfl

theorem signed_numeral_small (h : n.toNat < 2 ^ 31) : signedNumeral n = numeral 10 n.toNat := by
  unfold signedNumeral
  rw [int_of_word h, if_neg (by omega), Int.natAbs_natCast]

/-- No text goes on in the same way with a negative number and with what is written for it. -/
theorem signed_numeral_large (h : 2 ^ 31 ≤ n.toNat) (as bs : Bytes) :
    numeral 10 n.toNat ++ as ≠ signedNumeral n ++ bs := by
  intro heq
  unfold signedNumeral at heq
  rw [if_pos (int_neg_of_word h)] at heq
  obtain ⟨d, ds, hds⟩ := List.exists_cons_of_ne_nil (numeral_ne_nil 10 n.toNat)
  rw [hds] at heq
  have hd : d ∈ numeral 10 n.toNat := by
    rw [hds]
    exact List.mem_cons_self
  exact (mem_numeral (by decide) (by decide) hd).2 (List.cons.inj heq).1

/-- The text of the pieces is written exactly if no number among them is negative. -/
theorem written_eq_text_iff (ps : List Piece) :
    ps.flatMap Piece.written = ps.flatMap Piece.text ↔
      ∀ n, .dec n ∈ ps → n.toNat < 2 ^ 31 := by
  induction ps with
  | nil => simp
  | cons p ps ih =>
    rw [List.flatMap_cons, List.flatMap_cons]
    cases p with
    | lit c => simp [Piece.written, Piece.text, ih]
    | str s => simp [Piece.written, Piece.text, ih]
    | hex n => simp [Piece.written, Piece.text, ih]
    | dec n =>
      show numeral 10 n.toNat ++ _ = signedNumeral n ++ _ ↔ _
      rcases Nat.lt_or_ge n.toNat (2 ^ 31) with hsmall | hlarge
      · rw [signed_numeral_small hsmall, List.append_cancel_left_eq, ih]
        refine ⟨?_, fun hall m hm => hall m (List.mem_cons_of_mem _ hm)⟩
        intro hall m hm
        rcases List.mem_cons.mp hm with heq | hold
        · cases heq
          exact hsmall
        · exact hall m hold
      · refine iff_of_false (signed_numeral_large hlarge _ _) ?_
        intro hall
        exact absurd (hall n List.mem_cons_self) (Nat.not_lt.mpr hlarge)

/-- The call appends the timestamp and then the text, and the log grows by it unless the
heap refuses one of the characters. -/
def Prints (online : Bool) (ticks : UInt32) (fmt : CString) (args : List PrintkArg)
    (tbuf : Nat → UInt8) (text : Bytes) : Prop :=
  ∃ acts, printk online ticks fmt args tbuf = some acts ∧
    appendedBy acts = timestamp ticks ++ text ∧
    ∀ heap s, (run (KernelLog.step heap) s acts).map KernelLog.appended =
      (appendAll heap s (timestamp ticks ++ text)).map
        (fun _ => s.appended ++ (timestamp ticks ++ text))

theorem printk_text_iff (h : Matching fmt.bytes args ps) (online : Bool) (ticks : UInt32)
    (tbuf : Nat → UInt8) :
    Prints online ticks fmt args tbuf (ps.flatMap Piece.text) ↔
      online = true ∧ ∀ n, .dec n ∈ ps → n.toNat < 2 ^ 31 := by
  cases online with
  | false =>
    refine iff_of_false ?_ (fun hon => absurd hon.1 (by decide))
    rintro ⟨acts, hacts, htext, -⟩
    cases hacts
    cases htext
  | true =>
    obtain ⟨acts, hacts, hwritten⟩ := printk_writes h ticks tbuf
    rw [← written_eq_text_iff, eq_self_iff_true, true_and]
    constructor
    · rintro ⟨acts', hacts', htext, -⟩
      cases hacts.symm.trans hacts'
      exact List.append_cancel_left (hwritten.symm.trans htext)
    · intro heq
      rw [heq] at hwritten
      refine ⟨acts, hacts, hwritten, ?_⟩
      intro heap s
      rw [log_appends, hwritten]

def mixedFormat : CString := ⟨[97, 37, 100, 37, 120, 37, 115], by decide⟩
def okString : CString := ⟨[111, 107], by decide⟩

theorem printk_text_mixed :
    Matching mixedFormat.bytes [.int 5, .int 0xFFFFFFFF, .str okString]
      [.lit 97, .dec 5, .hex 0xFFFFFFFF, .str okString] ∧
    Prints true 7 mixedFormat [.int 5, .int 0xFFFFFFFF, .str okString] (fun _ => 0)
      ([.lit 97, .dec 5, .hex 0xFFFFFFFF, .str okString].flatMap Piece.text) := by
  have hm : Matching mixedFormat.bytes [.int 5, .int 0xFFFFFFFF, .str okString]
      [.lit 97, .dec 5, .hex 0xFFFFFFFF, .str okString] :=
    .lit 97 (by decide) (.dec 5 (.hex 0xFFFFFFFF (.str okString .nil)))
  refine ⟨hm, (printk_text_iff hm true 7 (fun _ => 0)).mpr ⟨rfl, ?_⟩⟩
  intro n hn
  simp only [List.mem_cons, reduceCtorEq, Piece.dec.injEq, List.not_mem_nil, or_false,
    false_or] at hn
  subst hn
  decide

def percentD : CString := ⟨[37, 100], by decide⟩

/-- -1 is printed as 4294967295. -/
theorem negative_printed_unsigned :
    Matching percentD.bytes [.int 0xFFFFFFFF] [.dec 0xFFFFFFFF] ∧
    Piece.text (.dec 0xFFFFFFFF) = [45, 49] ∧
    ¬ Prints true 0 percentD [.int 0xFFFFFFFF] (fun _ => 0) [45, 49] := by
  refine ⟨.dec _ .nil, ?_, ?_⟩
  · simp [Piece.text, signedNumeral, numeral, digitChar, bchars]
  · rintro ⟨acts, hacts, htext, -⟩
    have hprinted : (printk true 0 percentD [.int 0xFFFFFFFF] (fun _ => 0)).map appendedBy =
        some (timestamp 0 ++ [52, 50, 57, 52, 57, 54, 55, 50, 57, 53]) := by decide
    rw [hacts, Option.map_some, htext] at hprinted
    exact absurd hprinted (by decide)

end Levos.Proofs.Printk
