import HaOS.Print.Format

/-!
# The three `printf` (`kernel/io.c`, `kernel/serial.c`, `shared/sources/io.c`)

* `printfImpl`, `serialPrintfImplementation` : the scanners, by the index in the format;
* `userPrintf`, `serialPrintf`, `kernelPrintf` : the calls, with the registers that the assembler stubs push;
* `printfImpl_eq`, `serialLoop_eq` : both scanners print the pieces of the format;
* `same_output_iff` : when all three print the same.
-/

namespace HaOS.Print

/-- The byte at an index of a string; what lies behind the NUL is not known. -/
def byteAt (format : List UInt8) (index : Nat) : Option UInt8 := (format ++ [0])[index]?

/-- `printf_impl` of the kernel and of the user library, which differ in how they print a string. The `rounds` that are left
are enough for an index that grows up to the NUL. -/
def printfImplLoop (string : Nat → Text → Option (List UInt8)) (format : List UInt8) :
    Nat → Nat → List Arg → Option (List UInt8)
  | 0, _, _ => none
  | rounds + 1, index, args => do
    let b ← byteAt format index
    if b = 0 then some []
    else if b = percent then
      let index := index + 1
      let d ← byteAt format index
      match kind d with
      | some k =>
        let (out, args) ← convert string k args
        (printfImplLoop string format rounds (index + 1) args).map (out ++ ·)
      | none =>
        let b ← byteAt format (index - 1)
        (printfImplLoop string format rounds (index + 1) args).map ([b, d] ++ ·)
    else (printfImplLoop string format rounds (index + 1) args).map ([b] ++ ·)

variable {string : Nat → Text → Option (List UInt8)} {format pre rest : List UInt8} {b d : UInt8} {args : List Arg}

def printfImpl (string : Nat → Text → Option (List UInt8)) (format : Text) (args : List Arg) : Option (List UInt8) :=
  printfImplLoop string format.bytes (format.bytes.length + 1) 0 args

/-- The loop of `serial_printf_implementation`. -/
def serialLoop (format : List UInt8) : Nat → Nat → List Arg → Option (List UInt8)
  | 0, _, _ => none
  | rounds + 1, i, stack => do
    let b ← byteAt format i
    if b = 0 then some []
    else if b = percent then
      let d ← byteAt format (i + 1)
      match kind d with
      | some k =>
        let (out, stack) ← convert (fun _ text => some text.bytes) k stack
        (serialLoop format rounds (i + 1 + 1) stack).map (out ++ ·)
      | none => (serialLoop format rounds (i + 1 + 1) stack).map ([b, d] ++ ·)
    else (serialLoop format rounds (i + 1) stack).map ([b] ++ ·)

def serialPrintfImplementation (format : Text) (stack : List Arg) : Option (List UInt8) :=
  serialLoop format.bytes (format.bytes.length + 1) 0 stack

/-! ## The calls -/

/-- What the stubs push behind the format: `rsi`, `rdx`, `rcx`, `r8` and `r9`. Those that the call does not set are `left`
as they are. -/
def pushed (args : List Arg) (left : Fin 5 → Arg) : List Arg := (args ++ List.ofFn left).take 5

def userPrintf (left : Fin 5 → Arg) (format : Text) (args : List Arg) : Option (List UInt8) :=
  printfImpl (fun _ text => some text.bytes) format (pushed args left)

def serialPrintf (left : Fin 5 → Arg) (format : Text) (args : List Arg) : Option (List UInt8) :=
  serialPrintfImplementation format (pushed args left)

/-- The kernel prints a string by calling `printf` with it. `path` tells the calls apart, by the arguments that were left at
each of them, and `depth` bounds how many are open. -/
def kernelPrintf (left : List Nat → Fin 5 → Arg) : Nat → List Nat → Text → List Arg → Option (List UInt8)
  | 0, _, _, _ => none
  | depth + 1, path, format, args =>
    printfImpl (fun n text => kernelPrintf left depth (n :: path) text []) format (pushed args (left path))

/-! ## The scanners -/

theorem byteAt_append (pre rest : List UInt8) (k : Nat) : byteAt (pre ++ rest) (pre.length + k) = (rest ++ [0])[k]? := by
  rw [byteAt, List.append_assoc, List.getElem?_append_right (Nat.le_add_right _ _), Nat.add_sub_cancel_left]

theorem serialLoop_eq (format : List UInt8) (rounds i : Nat) (stack : List Arg) :
    serialLoop format rounds i stack = printfImplLoop (fun _ text => some text.bytes) format rounds i stack := by
  induction rounds generalizing i stack with
  | zero => rfl
  | succ rounds ih =>
      simp only [serialLoop, printfImplLoop, ih, Nat.add_sub_cancel]
      rcases byteAt format i with - | b
      · rfl
      · rfl

theorem printfImplLoop_behind (format : List UInt8) (rounds : Nat) (args : List Arg) :
    printfImplLoop string format rounds (format.length + 1) args = none := by
  cases rounds with
  | zero => rfl
  | succ rounds =>
      have hnone : byteAt format (format.length + 1) = none := by
        rw [byteAt, List.getElem?_eq_none]
        simp only [List.length_append, List.length_singleton, le_refl]
      rw [printfImplLoop, hnone]
      rfl

theorem printfImplLoop_nul (format : List UInt8) (rounds : Nat) (args : List Arg) :
    printfImplLoop string format (rounds + 1) format.length args = some [] := by
  have hb : byteAt format format.length = some 0 := by
    simpa using byteAt_append format [] 0
  simp only [printfImplLoop, hb, Option.bind_eq_bind, Option.bind_some, if_true]

theorem printfImplLoop_plain (hb : b ≠ 0) (hp : b ≠ percent) (rounds : Nat) :
    printfImplLoop string (pre ++ b :: rest) (rounds + 1) pre.length args =
      (printfImplLoop string (pre ++ b :: rest) rounds (pre.length + 1) args).map ([b] ++ ·) := by
  have h0 : byteAt (pre ++ b :: rest) pre.length = some b := byteAt_append pre (b :: rest) 0
  simp only [printfImplLoop, h0, Option.bind_eq_bind, Option.bind_some, hb, hp, if_false]

theorem printfImplLoop_percent (rounds : Nat) :
    printfImplLoop string (pre ++ percent :: rest) (rounds + 1) pre.length args =
      (rest ++ [0])[0]?.bind fun d =>
        match kind d with
        | some k => (convert string k args).bind fun x =>
          (printfImplLoop string (pre ++ percent :: rest) rounds (pre.length + 2) x.2).map (x.1 ++ ·)
        | none => (printfImplLoop string (pre ++ percent :: rest) rounds (pre.length + 2) args).map ([percent, d] ++ ·) := by
  have h0 : byteAt (pre ++ percent :: rest) pre.length = some percent := byteAt_append pre (percent :: rest) 0
  have h1 : byteAt (pre ++ percent :: rest) (pre.length + 1) = (rest ++ [0])[0]? := byteAt_append pre (percent :: rest) 1
  have hne : percent ≠ 0 := by decide
  simp only [printfImplLoop, h0, h1, Option.bind_eq_bind, Option.bind_some, hne, if_false, if_true, Nat.add_sub_cancel]

/-- Behind a percent sign and its letter the scanner is as far as `h` knows it. -/
theorem printfImplLoop_skip {rounds : Nat} {R : List Arg → Option (List UInt8)}
    (h : ∀ {pre : List UInt8} {args : List Arg} {rounds : Nat}, 0 ∉ rest → rest.length < rounds →
      printfImplLoop string (pre ++ rest) rounds pre.length args = R args)
    (hnul : 0 ∉ b :: d :: rest) (hrounds : (b :: d :: rest).length < rounds + 1) :
    printfImplLoop string (pre ++ b :: d :: rest) rounds (pre.length + 2) args = R args := by
  have hlen : pre.length + 2 = (pre ++ [b, d]).length := by
    rw [List.length_append]
    rfl
  have happ : pre ++ b :: d :: rest = pre ++ [b, d] ++ rest := by
    rw [List.append_assoc]
    rfl
  rw [hlen, happ]
  apply h
  · exact fun h0 => hnul (List.mem_cons_of_mem b (List.mem_cons_of_mem d h0))
  · simp only [List.length_cons] at hrounds
    omega

/-- The scanner prints the pieces of the format from its index on. -/
theorem printfImplLoop_eq {rounds : Nat} (hnul : 0 ∉ rest) (hrounds : rest.length < rounds) :
    printfImplLoop string (pre ++ rest) rounds pre.length args = (pieces rest).bind fun ps => output string ps args := by
  induction rest using pieces.induct generalizing pre rounds args with
  | case1 =>
      obtain ⟨rounds, rfl⟩ := Nat.exists_eq_add_one_of_ne_zero (Nat.ne_of_gt hrounds)
      rw [List.append_nil, printfImplLoop_nul]
      rfl
  | case2 =>
      -- the NUL is taken for the letter, and the index goes on behind it
      obtain ⟨rounds, rfl⟩ := Nat.exists_eq_add_one_of_ne_zero (Nat.ne_of_gt (Nat.zero_lt_of_lt hrounds))
      have hlen : pre.length + 2 = (pre ++ [percent]).length + 1 := by
        rw [List.length_append, List.length_singleton]
      rw [printfImplLoop_percent, hlen, printfImplLoop_behind]
      rfl
  | case3 b hb =>
      have hb0 : b ≠ 0 := fun h => hnul (h ▸ List.mem_singleton_self b)
      obtain ⟨rounds, rfl⟩ := Nat.exists_eq_add_of_le' (show 2 ≤ rounds from hrounds)
      have hlen : pre.length + 1 = (pre ++ [b]).length := by
        rw [List.length_append, List.length_singleton]
      rw [printfImplLoop_plain hb0 hb, hlen, printfImplLoop_nul, pieces, if_neg hb]
      rfl
  | case4 d format k hk ih =>
      obtain ⟨rounds, rfl⟩ := Nat.exists_eq_add_one_of_ne_zero (Nat.ne_of_gt (Nat.zero_lt_of_lt hrounds))
      have hnext : ∀ args, printfImplLoop string (pre ++ percent :: d :: format) rounds (pre.length + 2) args =
          (pieces format).bind fun ps => output string ps args := fun args => printfImplLoop_skip ih hnul hrounds
      rw [printfImplLoop_percent, show (d :: format ++ [0])[0]? = some d from rfl, Option.bind_some]
      simp only [hk, hnext, pieces, if_true]
      rcases pieces format with - | ps
      · exact Option.bind_fun_none _
      · rfl
  | case5 d format hk ih =>
      obtain ⟨rounds, rfl⟩ := Nat.exists_eq_add_one_of_ne_zero (Nat.ne_of_gt (Nat.zero_lt_of_lt hrounds))
      have hnext : printfImplLoop string (pre ++ percent :: d :: format) rounds (pre.length + 2) args =
          (pieces format).bind fun ps => output string ps args := printfImplLoop_skip ih hnul hrounds
      rw [printfImplLoop_percent, show (d :: format ++ [0])[0]? = some d from rfl, Option.bind_some]
      simp only [hk, hnext, pieces, if_true]
      rcases pieces format with - | ps
      · rfl
      · rfl
  | case6 b d format hb ih =>
      obtain ⟨rounds, rfl⟩ := Nat.exists_eq_add_one_of_ne_zero (Nat.ne_of_gt (Nat.zero_lt_of_lt hrounds))
      have hb0 : b ≠ 0 := fun h => hnul (h ▸ List.mem_cons_self)
      have hlen : pre.length + 1 = (pre ++ [b]).length := by
        rw [List.length_append, List.length_singleton]
      rw [printfImplLoop_plain hb0 hb, hlen, List.append_cons,
        ih (fun h => hnul (List.mem_cons_of_mem b h)) (Nat.lt_of_succ_lt_succ hrounds), pieces, if_neg hb]
      rcases pieces (d :: format) with - | ps
      · rfl
      · rfl

theorem printfImpl_eq (string : Nat → Text → Option (List UInt8)) (format : Text) (args : List Arg) :
    printfImpl string format args = (pieces format.bytes).bind fun ps => output string ps args := by
  show printfImplLoop string ([] ++ format.bytes) (format.bytes.length + 1) ([] : List UInt8).length args = _
  exact printfImplLoop_eq format.nul (Nat.lt_succ_self _)

theorem serialPrintf_eq (left : Fin 5 → Arg) (format : Text) (args : List Arg) :
    serialPrintf left format args = userPrintf left format args := serialLoop_eq _ _ _ _

/-! ## The calls print the same -/

variable {ps : List Piece} {left : List Nat → Fin 5 → Arg} {depth : Nat} {path : List Nat} {text fmt : Text}
  {o more : List UInt8}

theorem pushed_eq (hlen : args.length ≤ 5) (left : Fin 5 → Arg) :
    pushed args left = args ++ (List.ofFn left).take (5 - args.length) := by
  rw [pushed, List.take_append, List.take_of_length_le hlen]

theorem userPrintf_eq (hps : pieces fmt.bytes = some ps) (hfits : Fits ps args) (hlen : args.length ≤ 5)
    (left : Fin 5 → Arg) : userPrintf left fmt args = some (printed ps args) := by
  rw [userPrintf, printfImpl_eq, hps, pushed_eq hlen]
  exact output_eq_printed hfits (fun _ _ _ => rfl) _

theorem kernelPrintf_plain (h : Plain text) : kernelPrintf left (depth + 1) path text [] = some text.bytes := by
  obtain ⟨ps, hps, hplain⟩ := h
  rw [kernelPrintf, printfImpl_eq, hps]
  exact output_plain hps hplain _

/-- With zeros in the registers a string is printed as it is only when it is all literal. -/
theorem kernelPrintf_zero (h : kernelPrintf (fun _ _ => .num 0) depth path text [] = some o) :
    Plain text ∧ o = text.bytes ∨ Apart o text.bytes := by
  rcases depth with - | depth
  · cases h
  · rw [kernelPrintf, printfImpl_eq] at h
    obtain ⟨ps, hps, ho⟩ := Option.bind_eq_some_iff.mp h
    have hregs : ∀ a ∈ pushed [] fun _ => .num 0, a = .num 0 := by
      intro a ha
      rw [pushed, List.nil_append] at ha
      obtain ⟨i, rfl⟩ := List.mem_ofFn.mp (List.mem_of_mem_take ha)
      rfl
    exact (output_zero hps hregs ho).imp_left fun ⟨hplain, heq⟩ => ⟨⟨ps, hps, hplain⟩, heq⟩

/-- A conversion prints its argument as it should, or, if it is a string, differently. -/
theorem convert_cases {regs : List Arg} {arg : Arg} {k : Kind} {x : List UInt8 × List Arg} (hk : arg.Is k)
    (hstring : ∀ n text o, string n text = some o → Plain text ∧ o = text.bytes ∨ Apart o text.bytes)
    (hx : convert string k (arg :: regs) = some x) :
    x.2 = regs ∧ ((∀ text, arg = .str text → Plain text) ∧ x.1 = arg.print k ∨ Apart x.1 (arg.print k)) := by
  rcases arg with value | text
  · have hnum : ∀ text, Arg.num value = .str text → Plain text := fun _ h => nomatch h
    cases k
    · cases hx
      exact ⟨rfl, .inl ⟨hnum, rfl⟩⟩
    · cases hx
      exact ⟨rfl, .inl ⟨hnum, rfl⟩⟩
    · cases hk
    · cases hx
      exact ⟨rfl, .inl ⟨hnum, rfl⟩⟩
  · cases k
    · cases hk
    · cases hk
    · obtain ⟨o, ho, rfl⟩ := Option.map_eq_some_iff.mp hx
      refine ⟨rfl, (hstring _ text o ho).imp_left fun ⟨hplain, heq⟩ => ⟨fun t ht => ?_, heq⟩⟩
      cases ht
      exact hplain
    · cases hk

/-- Where each string is printed as it is or differently, the format is printed right only if all of them are. -/
theorem plain_of_output {regs : List Arg} (h : Fits ps args)
    (hstring : ∀ n text o, string n text = some o → Plain text ∧ o = text.bytes ∨ Apart o text.bytes)
    (ho : output string ps (args ++ regs) = some o) :
    (∀ text, .str text ∈ args → Plain text) ∧ o = printed ps args ∨ Apart o (printed ps args) := by
  induction ps, args using Fits.induct generalizing o with
  | case1 args =>
      rw [Fits] at h
      cases ho
      rw [h, printed_nil]
      exact .inl ⟨fun text htext => absurd htext List.not_mem_nil, rfl⟩
  | case2 bytes ps args ih =>
      obtain ⟨o', ho', rfl⟩ := Option.map_eq_some_iff.mp ho
      rw [printed]
      rcases ih h ho' with ⟨hplain, rfl⟩ | hapart
      · exact .inl ⟨hplain, rfl⟩
      · exact .inr (hapart.append_left bytes)
  | case3 k ps arg args ih =>
      obtain ⟨x, hx, hrest⟩ := Option.bind_eq_some_iff.mp ho
      obtain ⟨o', ho', rfl⟩ := Option.map_eq_some_iff.mp hrest
      obtain ⟨hregs, harg⟩ := convert_cases h.1 hstring hx
      rw [hregs] at ho'
      rw [printed]
      rcases harg with ⟨hplain, heq⟩ | hapart
      · rw [heq]
        rcases ih h.2 ho' with ⟨hall, rfl⟩ | hapart
        · refine .inl ⟨fun text htext => ?_, rfl⟩
          rcases List.mem_cons.mp htext with htext | htext
          · exact hplain text htext.symm
          · exact hall text htext
        · exact .inr (hapart.append_left _)
      · exact .inr (hapart.append_right _ _)
  | case4 k ps => cases h

/-- For a format whose percent signs are followed by a character, and arguments that fit it, the serial and the user's
`printf` print the same, with the strings as they are. The kernel's does, whatever the registers hold, exactly when no
string has a conversion or ends with a percent sign of its own. -/
theorem same_output_iff (hps : pieces fmt.bytes = some ps) (hfits : Fits ps args) (hlen : args.length ≤ 5) :
    (∀ left, serialPrintf left fmt args = some (printed ps args) ∧ userPrintf left fmt args = some (printed ps args)) ∧
      ((∀ left, ∃ n, ∀ depth, n ≤ depth → kernelPrintf left depth [] fmt args = some (printed ps args)) ↔
        ∀ text, .str text ∈ args → Plain text) := by
  refine ⟨fun left => ?_, fun h text htext => ?_, fun hplain left => ⟨2, fun depth hdepth => ?_⟩⟩
  · rw [serialPrintf_eq]
    exact ⟨userPrintf_eq hps hfits hlen left, userPrintf_eq hps hfits hlen left⟩
  · obtain ⟨n, hn⟩ := h fun _ _ => .num 0
    have ho := hn (n + 1) (Nat.le_succ n)
    rw [kernelPrintf, printfImpl_eq, hps, pushed_eq hlen] at ho
    rcases plain_of_output hfits (fun _ _ _ => kernelPrintf_zero) ho with ⟨hplain, -⟩ | hapart
    · exact hplain text htext
    · exact absurd rfl hapart.ne
  · obtain ⟨depth, rfl⟩ := Nat.exists_eq_add_of_le' hdepth
    rw [kernelPrintf, printfImpl_eq, hps, pushed_eq hlen]
    exact output_eq_printed hfits (fun n text htext => kernelPrintf_plain (hplain text htext)) _

/-- `"%s"`. -/
def stringFormat : Text := ⟨[0x25, 0x73], by decide⟩

/-- `"%c"`. -/
def charFormat : Text := ⟨[0x25, 0x63], by decide⟩

/-- `"OS"`. -/
def plainName : Text := ⟨[0x4F, 0x53], by decide⟩

theorem same_output_iff_name :
    (∀ left, serialPrintf left stringFormat [.str plainName] = some plainName.bytes ∧
      userPrintf left stringFormat [.str plainName] = some plainName.bytes) ∧
      ((∀ left, ∃ n, ∀ depth, n ≤ depth →
        kernelPrintf left depth [] stringFormat [.str plainName] = some plainName.bytes) ↔
        ∀ text, .str text ∈ [Arg.str plainName] → Plain text) :=
  same_output_iff (show pieces stringFormat.bytes = some [.conversion .s] from rfl)
    (show Fits [.conversion .s] [.str plainName] from ⟨trivial, rfl⟩) (by decide)

/-- A name with a conversion: the kernel prints the character that a register happens to hold. -/
theorem not_same_output_name :
    pieces stringFormat.bytes = some [.conversion .s] ∧ Fits [.conversion .s] [.str charFormat] ∧
      serialPrintf (fun _ => .num 0) stringFormat [.str charFormat] = some [0x25, 0x63] ∧
      userPrintf (fun _ => .num 0) stringFormat [.str charFormat] = some [0x25, 0x63] ∧
      ∀ depth, kernelPrintf (fun _ _ => .num 0) (depth + 2) [] stringFormat [.str charFormat] = some [0] :=
  ⟨rfl, ⟨trivial, rfl⟩, rfl, rfl, fun _ => rfl⟩

end HaOS.Print
