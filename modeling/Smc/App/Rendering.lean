/-
# What `tty_printf` writes

A well-formed format is a list of pieces: characters that stand for
themselves, and directives. `Does` says of a part of `tty_printf` what it
writes, the arguments it takes and the indices it uses; the parts compose
(`Does.bind`), so that a whole format writes the output of its pieces in order
(`scan_does`).

On a terminal that is sometimes full, a call sends a first part of this
output, and returns 0 when it is the whole (`printf_saturated`). On one that
is always ready, the output is that of the reference renderings, with all
indices inside the arrays, unless a `%u` gets an argument of 2^31 or more or a
`%d` the most negative number (`rendered_iff`): both are converted as a
negative `int`, and a remainder of it is no index.

Key definitions: `Piece`, `render`, `Directive.reference`, `Rendered`.
-/
import Smc.App.TtyPrintf

namespace Smc
namespace App
namespace TtyPrintf

open Giet.Tty

/-! ### Formats -/

inductive Directive where
  | d
  | u
  | x
  | c
  | s
deriving DecidableEq, Repr

/-- The byte after the `%`. -/
def Directive.code : Directive → Byte
  | .d => 0x64
  | .u => 0x75
  | .x => 0x78
  | .c => 0x63
  | .s => 0x73

/-- A character other than NUL and `%`, or a directive. -/
inductive Piece where
  | literal (c : Byte) (ne : c ≠ 0 ∧ c ≠ 0x25)
  | directive (dir : Directive)

def Piece.bytes : Piece → List Byte
  | .literal c _ => [c]
  | .directive dir => [0x25, dir.code]

/-- The format, without its NUL. -/
def formatOf (ps : List Piece) : List Byte := ps.flatMap Piece.bytes

variable (env : Env)

/-- The directives with their arguments, the first of them argument `ap`. -/
def taken : List Piece → ℕ → List (Directive × Word)
  | [], _ => []
  | .literal _ _ :: ps, ap => taken ps ap
  | .directive dir :: ps, ap => (dir, env.args ap) :: taken ps (ap + 1)

/-- The literals, and the texts of the directives. -/
def render (f : Directive → Word → List Byte) : List Piece → ℕ → List Byte
  | [], _ => []
  | .literal c _ :: ps, ap => c :: render f ps ap
  | .directive dir :: ps, ap => f dir (env.args ap) ++ render f ps (ap + 1)

/-- The canonical text of an argument. -/
def reference : Directive → Word → List Byte
  | .d, v =>
    if v.toInt < 0 then ascii "-" ++ numeralText 10 v.toInt.natAbs else numeralText 10 v.toInt.natAbs
  | .u, v => numeralText 10 v.toNat
  | .x, v => ascii "0x" ++ numeralText 16 v.toNat
  | .c, v => [v.setWidth 8]
  | .s, v => (env.str v).bytes

/-- The text `tty_printf` makes of an argument. -/
def output : Directive → Word → List Byte
  | .d, v =>
    if v.toInt < 0 then ascii "-" ++ digits env decimal (-v) else digits env decimal v
  | .u, v => digits env decimal v
  | .x, v => ascii "0x" ++ digits env hexadecimal v
  | .c, v => [v.setWidth 8]
  | .s, v => (env.str v).bytes

/-- The number a directive converts, and how. -/
def number : Directive → Word → Option (Radix × Word)
  | .d, v => some (decimal, if v.toInt < 0 then -v else v)
  | .u, v => some (decimal, v)
  | .x, v => some (hexadecimal, v)
  | .c, _ | .s, _ => none

/-- The indices of `HexaTab` a directive uses. -/
def tabUsed (dir : Directive) (v : Word) : List ℤ :=
  match number dir v with
  | some (rad, w) => (conv env rad w).tabUsed
  | none => []

/-- The indices of `buf` a directive uses. -/
def bufUsed (dir : Directive) (v : Word) : List ℤ :=
  match number dir v with
  | some (rad, w) => (conv env rad w).bufUsed ++ digitsUsed env rad w
  | none => if dir = .c then [0] else []

/-! ### The parts of the function -/

/-- From `s`, a part of the function writes `out`, takes `n` arguments and
uses these indices, unless a system call ends it. -/
structure Does (out : List Byte) (n : ℕ) (tab buf : List ℤ) (s : State) (r : Except State State) : Prop where
  emits : Emits State.tty out s r
  ok : ∀ s', r = .ok s' → s'.ap = s.ap + n ∧ s'.tabUsed = s.tabUsed ++ tab ∧ s'.bufUsed = s.bufUsed ++ buf

variable {env}

theorem Does.bind {out out' : List Byte} {n n' : ℕ} {tab tab' buf buf' : List ℤ} {s : State}
    {r : Except State State} {f : State → Except State State} (h : Does out n tab buf s r)
    (hf : ∀ s', s'.ap = s.ap + n → Does out' n' tab' buf' s' (f s')) :
    Does (out ++ out') (n + n') (tab ++ tab') (buf ++ buf') s (r >>= f) where
  emits := h.emits.bind fun s' hs' => (hf s' (h.ok s' hs').1).emits
  ok s' hs' := by
    cases r with
    | error s1 => cases hs'
    | ok s1 =>
      obtain ⟨hap, htab, hbuf⟩ := h.ok s1 rfl
      obtain ⟨hap', htab', hbuf'⟩ := (hf s1 hap).ok s' hs'
      exact ⟨by rw [hap', hap, Nat.add_assoc], by rw [htab', htab, List.append_assoc],
        by rw [hbuf', hbuf, List.append_assoc]⟩

theorem sysWrite_does (buffer : List Byte) (s : State) : Does buffer 0 [] [] s (sysWrite buffer s) := by
  have h := ttyWrite_spec buffer s.tty
  unfold sysWrite
  dsimp only
  split_ifs with hlen
  · have hne : buffer.take (ttyWrite buffer s.tty).1 ≠ buffer := by
      intro he
      apply hlen
      have hl := congrArg List.length he
      rw [List.length_take] at hl
      have := h.le
      omega
    exact ⟨⟨fun hr => hlen (h.ready hr), _, List.take_prefix _ _, hne, h.sent⟩, nofun⟩
  · have hall : buffer.take (ttyWrite buffer s.tty).1 = buffer := by
      rw [not_not.mp hlen, List.take_length]
    have hsent := h.sent
    rw [hall] at hsent
    refine ⟨⟨hsent, h.status⟩, fun s' hs' => ?_⟩
    obtain rfl := Except.ok.inj hs'
    simp

/-- The text of a run is written, if there is any. -/
theorem flush_does (run : List Byte) (s : State) :
    Does run 0 [] [] s (if run = [] then .ok s else sysWrite run s) := by
  split_ifs with h
  · rw [h]
    refine ⟨Emits.pure, fun s' hs' => ?_⟩
    obtain rfl := Except.ok.inj hs'
    simp
  · exact sysWrite_does run s

/-- The indices a part uses before its system call. -/
theorem Does.of_used {out : List Byte} {tab buf : List ℤ} {s : State} {r : Except State State}
    (h : Does out 0 [] [] { s with tabUsed := s.tabUsed ++ tab, bufUsed := s.bufUsed ++ buf } r) :
    Does out 0 tab buf s r := by
  refine ⟨h.emits, fun s' hs' => ?_⟩
  obtain ⟨hap, htab, hbuf⟩ := h.ok s' hs'
  rw [List.append_nil] at htab hbuf
  exact ⟨hap, htab, hbuf⟩

theorem convert_does (rad : Radix) (v : Word) (s : State) :
    Does (digits env rad v) 0 (conv env rad v).tabUsed ((conv env rad v).bufUsed ++ digitsUsed env rad v) s
      (convert env rad v s) := by
  apply Does.of_used
  exact sysWrite_does (digits env rad v) _

/-- `printf_arguments` takes an argument first. -/
theorem Does.of_next {out : List Byte} {tab buf : List ℤ} {s : State} {r : Except State State}
    (h : Does out 0 tab buf { s with ap := s.ap + 1 } r) : Does out 1 tab buf s r :=
  ⟨h.emits, h.ok⟩

theorem arguments_does (env : Env) (dir : Directive) (s : State) :
    Does (output env dir (env.args s.ap)) 1 (tabUsed env dir (env.args s.ap)) (bufUsed env dir (env.args s.ap)) s
      (arguments env dir.code s) := by
  apply Does.of_next
  unfold output tabUsed bufUsed number arguments
  cases dir with
  | d =>
    by_cases hneg : (env.args s.ap).toInt < 0
    · simp only [Directive.code, hneg, if_true]
      exact (sysWrite_does _ _).bind fun s' _ => convert_does decimal _ s'
    · simp only [Directive.code, hneg, if_false]
      exact convert_does decimal _ _
  | u => exact convert_does decimal _ _
  | x => exact (sysWrite_does _ _).bind fun s' _ => convert_does hexadecimal _ s'
  | c =>
    apply Does.of_used
    rw [List.append_nil]
    exact sysWrite_does [(env.args s.ap).setWidth 8] _
  | s => exact sysWrite_does _ _

/-! ### The whole format -/

section Scan

variable (rest : List Byte)

theorem scan_nul (run : List Byte) (s : State) :
    scan env (.text run) (0 :: rest) s = some (if run = [] then .ok s else sysWrite run s) := by
  unfold scan
  rw [if_pos (Or.inl rfl)]
  cases (if run = [] then .ok s else sysWrite run s : Except State State) <;> rfl

theorem scan_literal {c : Byte} (hc : c ≠ 0 ∧ c ≠ 0x25) (run : List Byte) (s : State) :
    scan env (.text run) (c :: rest) s = scan env (.text (run ++ [c])) rest s := by
  rw [scan, if_neg (not_or.mpr hc)]

/-- After a directive, `r` is how the function goes on. -/
theorem scan_directive (dir : Directive) (run : List Byte) (s : State) {r : State → Except State State}
    (hr : ∀ s, scan env (.text []) rest s = some (r s)) :
    scan env (.text run) (0x25 :: dir.code :: rest) s =
      some ((if run = [] then .ok s else sysWrite run s) >>= fun s => arguments env dir.code s >>= r) := by
  unfold scan
  rw [if_pos (Or.inr rfl)]
  cases (if run = [] then .ok s else sysWrite run s : Except State State) with
  | error s1 => rfl
  | ok s1 =>
    dsimp only
    rw [if_pos rfl, scan]
    cases ha : arguments env dir.code s1 with
    | error s2 =>
      show _ = some (arguments env dir.code s1 >>= r)
      rw [ha]
      rfl
    | ok s2 =>
      show _ = some (arguments env dir.code s1 >>= r)
      rw [ha]
      exact hr s2

/-- A directive and the pieces after it. -/
theorem directive_does (dir : Directive) {ps : List Piece} {ap : ℕ} {r : State → Except State State}
    (hdoes : ∀ s, Does (render env (output env) ps s.ap) (taken env ps s.ap).length
      ((taken env ps s.ap).flatMap fun x => tabUsed env x.1 x.2)
      ((taken env ps s.ap).flatMap fun x => bufUsed env x.1 x.2) s (r s)) {s : State} (hs : s.ap = ap) :
    Does (render env (output env) (.directive dir :: ps) ap) (1 + (taken env ps (ap + 1)).length)
      ((taken env (.directive dir :: ps) ap).flatMap fun x => tabUsed env x.1 x.2)
      ((taken env (.directive dir :: ps) ap).flatMap fun x => bufUsed env x.1 x.2) s (arguments env dir.code s >>= r) := by
  subst hs
  apply (arguments_does env dir s).bind
  intro s' hs'
  rw [← hs']
  exact hdoes s'

/-- **A format writes the output of its pieces in order**, after the run that
is still to be written. -/
theorem scan_does (env : Env) (ps : List Piece) (run : List Byte) (s : State) :
    ∃ r, scan env (.text run) (formatOf ps ++ 0 :: rest) s = some r ∧
      Does (run ++ render env (output env) ps s.ap) (taken env ps s.ap).length
        ((taken env ps s.ap).flatMap fun x => tabUsed env x.1 x.2)
        ((taken env ps s.ap).flatMap fun x => bufUsed env x.1 x.2) s r := by
  induction ps generalizing run s with
  | nil =>
    refine ⟨_, scan_nul rest run s, ?_⟩
    rw [show render env (output env) [] s.ap = [] from rfl, List.append_nil]
    exact flush_does run s
  | cons p ps ih =>
    cases p with
    | literal c hc =>
      obtain ⟨r, hr, hdoes⟩ := ih (run ++ [c]) s
      refine ⟨r, ?_, ?_⟩
      · rw [← hr]
        exact scan_literal _ hc run s
      · rw [List.append_assoc] at hdoes
        exact hdoes
    | directive dir =>
      choose r hr hdoes using ih []
      refine ⟨_, scan_directive _ dir run s hr, ?_⟩
      -- the run, the directive, and the pieces after it
      have hall := (flush_does run s).bind fun s' hs' => directive_does (r := r) dir hdoes hs'
      have hlen : 0 + (1 + (taken env ps (s.ap + 1)).length) =
          (taken env (.directive dir :: ps) s.ap).length := by
        rw [taken, List.length_cons]
        omega
      rw [hlen] at hall
      exact hall

end Scan

/-! ### A terminal that is sometimes full -/

/-- What the function returns. -/
def returnValue : Except State State → Word
  | .ok _ => 0
  | .error _ => 1

/-- What a call has sent when it returns. -/
def sentBy : Except State State → List Byte
  | .ok s => s.tty.sent
  | .error s => s.tty.sent

/-- **A saturated terminal cuts the output short and nothing else.** For every
well-formed format, all arguments and every sequence of words of the status
register, what a call sends is a prefix of what it sends on a terminal that is
always ready, and it returns 0 exactly when that is the whole. -/
theorem printf_saturated (env : Env) (ps : List Piece) (rest : List Byte) (status ready : ℕ → Word)
    (hready : ∀ n, ready n &&& 0x2 ≠ 0x2) :
    ∃ r r', ttyPrintf env (formatOf ps ++ 0 :: rest) status = some r ∧
      ttyPrintf env (formatOf ps ++ 0 :: rest) ready = some r' ∧
      sentBy r <+: sentBy r' ∧ (returnValue r = 0 ↔ sentBy r = sentBy r') := by
  obtain ⟨r, hr, hdoes⟩ := scan_does rest env ps [] ⟨.start status, 0, [], []⟩
  obtain ⟨r', hr', hdoes'⟩ := scan_does rest env ps [] ⟨.start ready, 0, [], []⟩
  have hall : sentBy r' = render env (output env) ps 0 := by
    obtain ⟨s', rfl, hs'⟩ := hdoes'.emits.ok_of_ready hready
    exact hs'
  refine ⟨r, r', hr, hr', ?_⟩
  have hemits := hdoes.emits
  rw [hall]
  cases r with
  | ok s =>
    have hsent : sentBy (.ok s) = render env (output env) ps 0 := hemits.1
    rw [hsent]
    exact ⟨List.prefix_rfl, iff_of_true rfl rfl⟩
  | error s =>
    obtain ⟨-, l, hl, hne, hs⟩ := hemits
    have hsent : sentBy (.error s) = l := hs
    have hret : returnValue (.error s) ≠ 0 := show (1 : Word) ≠ 0 by decide
    rw [hsent]
    exact ⟨hl, iff_of_false hret hne⟩

/-- No arguments but zero, no strings, and zeros around the arrays. -/
def blank : Env := ⟨fun _ => 0, fun _ => ⟨[], nofun⟩, fun _ => 0, fun _ => 0⟩

/-- A terminal that takes one character sends the first of `0x0`. -/
theorem printf_saturated_one :
    ∃ r r', ttyPrintf blank [0x25, 0x78, 0] (fun n => if n = 0 then 0 else 2) = some r ∧
      ttyPrintf blank [0x25, 0x78, 0] (fun _ => 0) = some r' ∧
      sentBy r <+: sentBy r' ∧ (returnValue r = 0 ↔ sentBy r = sentBy r') :=
  printf_saturated blank [.directive .x] [] (fun n => if n = 0 then 0 else 2) (fun _ => 0) (fun _ => by decide)

/-! ### A terminal that is always ready -/

/-- The call returns 0 with the reference renderings sent, and every index
used is inside its array. -/
def Rendered (env : Env) (ps : List Piece) (rest : List Byte) (status : ℕ → Word) : Prop :=
  ∃ s, ttyPrintf env (formatOf ps ++ 0 :: rest) status = some (.ok s) ∧
    s.tty.sent = render env (reference env) ps 0 ∧
    (∀ j ∈ s.tabUsed, 0 ≤ j ∧ j < hexaTab.length) ∧ ∀ j ∈ s.bufUsed, 0 ≤ j ∧ j < bufSize

/-- The arguments a directive renders. -/
def Directive.Takes : Directive → Word → Prop
  | .d, v => v ≠ 0x80000000
  | .u, v => v.toNat < 2 ^ 31
  | .x, _ | .c, _ | .s, _ => True

theorem render_congr {f g : Directive → Word → List Byte} (ps : List Piece) (ap : ℕ)
    (h : ∀ x ∈ taken env ps ap, f x.1 x.2 = g x.1 x.2) : render env f ps ap = render env g ps ap := by
  induction ps generalizing ap with
  | nil => rfl
  | cons p ps ih =>
    cases p with
    | literal c hc => exact congrArg (c :: ·) (ih ap h)
    | directive dir =>
      have hhead := h (dir, env.args ap) List.mem_cons_self
      have htail := ih (ap + 1) fun x hx => h x (List.mem_cons_of_mem _ hx)
      unfold render
      rw [hhead, htail]

/-- A directive gives the reference, with its indices inside the arrays. -/
structure Renders (env : Env) (dir : Directive) (v : Word) : Prop where
  output : output env dir v = reference env dir v
  tabUsed : ∀ j ∈ tabUsed env dir v, 0 ≤ j ∧ j < hexaTab.length
  bufUsed : ∀ j ∈ bufUsed env dir v, 0 ≤ j ∧ j < bufSize

/-- The absolute value of a negative `int`, the most negative apart. -/
theorem toNat_neg {v : Word} (hneg : v.toInt < 0) (hv : v ≠ 0x80000000) :
    (-v).toNat = v.toInt.natAbs ∧ (-v).toNat < 2 ^ 31 := by
  have hne : v.toNat ≠ 2147483648 := fun h => hv (BitVec.eq_of_toNat_eq h)
  have hlt := v.isLt
  rw [BitVec.toInt_neg_iff] at hneg
  have hint : v.toInt = (v.toNat : ℤ) - 2 ^ 32 := by
    rw [BitVec.toInt_eq_toNat_cond, if_neg (by omega)]
    norm_num
  rw [BitVec.toNat_neg, hint]
  omega

/-- A directive that converts a number uses the indices of the conversion. -/
theorem renders_of_number {dir : Directive} {v w : Word} {rad : Radix} {b : ℕ} (hnum : number dir v = some (rad, w))
    (hn : Numbers env rad b w) (hout : TtyPrintf.output env dir v = reference env dir v) : Renders env dir v := by
  refine ⟨hout, ?_, ?_⟩
  · unfold TtyPrintf.tabUsed
    rw [hnum]
    exact hn.tabUsed
  · unfold TtyPrintf.bufUsed
    rw [hnum]
    exact hn.bufUsed

theorem renders_of_takes {dir : Directive} {v : Word} (h : dir.Takes v) : Renders env dir v := by
  cases dir with
  | d =>
    by_cases hneg : v.toInt < 0
    · obtain ⟨habs, hlt⟩ := toNat_neg hneg h
      have hn : Numbers env decimal 10 (-v) := numbers_decimal hlt
      apply renders_of_number (w := -v) _ hn
      · simp only [TtyPrintf.output, reference, hneg, if_true, hn.digits, habs]
      · simp only [number, hneg, if_true]
    · have hlt : v.toNat < 2 ^ 31 := by
        rw [BitVec.toInt_neg_iff] at hneg
        omega
      have habs : v.toInt.natAbs = v.toNat := by
        rw [BitVec.toInt_eq_toNat_of_lt (by omega)]
        rfl
      have hn : Numbers env decimal 10 v := numbers_decimal hlt
      apply renders_of_number (w := v) _ hn
      · simp only [TtyPrintf.output, reference, hneg, if_false, hn.digits, habs]
      · simp only [number, hneg, if_false]
  | u =>
    have hn : Numbers env decimal 10 v := numbers_decimal h
    exact renders_of_number rfl hn hn.digits
  | x =>
    have hn : Numbers env hexadecimal 16 v := numbers_hexadecimal v
    exact renders_of_number rfl hn (congrArg (ascii "0x" ++ ·) hn.digits)
  | c =>
    refine ⟨rfl, nofun, fun j hj => ?_⟩
    rw [show j = 0 from List.mem_singleton.mp hj]
    exact ⟨le_rfl, by decide⟩
  | s => exact ⟨rfl, nofun, nofun⟩

/-- An argument that a directive does not take is converted as a negative
`int`. -/
theorem neg_of_not_takes (env : Env) {dir : Directive} {v : Word} (h : ¬ dir.Takes v) : ∃ j ∈ tabUsed env dir v, j < 0 := by
  cases dir with
  | d =>
    obtain rfl : v = 0x80000000 := not_not.mp h
    exact conv_neg (by decide)
  | u =>
    have hle : 2 ^ 31 ≤ v.toNat := not_lt.mp h
    apply conv_neg
    rw [BitVec.toInt_neg_iff]
    omega
  | x => exact absurd trivial h
  | c => exact absurd trivial h
  | s => exact absurd trivial h

/-- **What `tty_printf` renders.** For every well-formed format and all
arguments, on a terminal that is always ready: the call writes the reference
renderings, with every index inside its array, exactly when no `%u` gets an
argument of 2^31 or more and no `%d` the most negative number. -/
theorem rendered_iff (env : Env) (ps : List Piece) (rest : List Byte) (status : ℕ → Word)
    (hready : ∀ n, status n &&& 0x2 ≠ 0x2) :
    Rendered env ps rest status ↔ ∀ x ∈ taken env ps 0, x.1.Takes x.2 := by
  obtain ⟨r, hr, hdoes⟩ := scan_does rest env ps [] ⟨.start status, 0, [], []⟩
  obtain ⟨s, rfl, hsent⟩ := hdoes.emits.ok_of_ready hready
  obtain ⟨-, htab, hbuf⟩ := hdoes.ok s rfl
  have hsent : s.tty.sent = render env (output env) ps 0 := hsent
  have htab : s.tabUsed = (taken env ps 0).flatMap fun x => tabUsed env x.1 x.2 := htab
  have hbuf : s.bufUsed = (taken env ps 0).flatMap fun x => bufUsed env x.1 x.2 := hbuf
  constructor
  · intro h x hx
    obtain ⟨s', hs', -, hin, -⟩ := h
    obtain rfl : s = s' := by
      have := hr.symm.trans hs'
      simpa using this
    by_contra hnot
    obtain ⟨j, hj, hneg⟩ := neg_of_not_takes env hnot
    have hmem : j ∈ s.tabUsed := by
      rw [htab]
      exact List.mem_flatMap.mpr ⟨x, hx, hj⟩
    have := (hin j hmem).1
    omega
  · intro h
    have hrenders : ∀ x ∈ taken env ps 0, Renders env x.1 x.2 := fun x hx => renders_of_takes (h x hx)
    refine ⟨s, hr, ?_, fun j hj => ?_, fun j hj => ?_⟩
    · rw [hsent]
      exact render_congr ps 0 fun x hx => (hrenders x hx).output
    · rw [htab] at hj
      obtain ⟨x, hx, hj⟩ := List.mem_flatMap.mp hj
      exact (hrenders x hx).tabUsed j hj
    · rw [hbuf] at hj
      obtain ⟨x, hx, hj⟩ := List.mem_flatMap.mp hj
      exact (hrenders x hx).bufUsed j hj

/-- A call with arguments -42, 2026, 0xBEEF, a letter and a string. -/
def fiveArgs : Env where
  args i := [0xFFFFFFD6, 2026, 0xBEEF, 0x41, 0x5000].getD i 0
  str _ := ⟨ascii "end", by decide⟩
  outside _ := 0
  buf _ := 0

/-- `n=%d/%u %x%c, %s`. -/
def fiveDirectives : List Piece :=
  [.literal 0x6E (by decide), .literal 0x3D (by decide), .directive .d, .literal 0x2F (by decide), .directive .u,
    .literal 0x20 (by decide), .directive .x, .directive .c, .literal 0x2C (by decide), .literal 0x20 (by decide),
    .directive .s]

theorem rendered_fiveDirectives : formatOf fiveDirectives = ascii "n=%d/%u %x%c, %s" ∧
    render fiveArgs (reference fiveArgs) fiveDirectives 0 = ascii "n=-42/2026 0xBEEFA, end" ∧
    Rendered fiveArgs fiveDirectives [] (fun _ => 0) := by
  refine ⟨by decide, by decide, (rendered_iff fiveArgs fiveDirectives [] (fun _ => 0) (fun _ => by decide)).mpr ?_⟩
  show ∀ x ∈ [(Directive.d, (0xFFFFFFD6 : Word)), (.u, 2026), (.x, 0xBEEF), (.c, 0x41), (.s, 0x5000)], x.1.Takes x.2
  simp [Directive.Takes]

/-- A `%u` of 2^32 - 1 looks up index -1 of `HexaTab`. -/
theorem unsigned_misread : ¬ Rendered { blank with args := fun _ => 0xFFFFFFFF } [.directive .u] [] (fun _ => 0) := by
  intro h
  obtain ⟨s, hs, -, htab, -⟩ := h
  have hused : (ttyPrintf { blank with args := fun _ => 0xFFFFFFFF } [0x25, 0x75, 0] fun _ => 0).map
      (fun r => match r with | .ok s => s.tabUsed | .error s => s.tabUsed) = some [-1] := by rfl
  rw [show ttyPrintf _ [0x25, 0x75, 0] _ = _ from hs] at hused
  obtain hused : s.tabUsed = [-1] := Option.some.inj hused
  have hle := (htab (-1) (by rw [hused]; exact List.mem_singleton_self _)).1
  omega

end TtyPrintf
end App
end Smc
