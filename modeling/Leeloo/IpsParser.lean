/-
Leeloo.IpsParser — `ips_parser.cpp`: the parser of single addresses, CIDR
blocks, address ranges and block ranges.

A function that reads characters returns `Option`: `none` is a read
outside the NUL-terminated string, or a shift by a negative count. The
`uint32_t` that `atoi3` returns on failure is `-1`. Lengths and indices
are natural numbers; the one length that wraps, the difference with a null
pointer in the last field of a block range, is computed modulo `2^64` from
the address of the string.
-/
import Leeloo.IpListIntervals
import Leeloo.Lib.CString

namespace Leeloo.IpsParser

open CString Text

/-- `byte_interval`, a closed interval of bytes. -/
structure ByteInterval where
  min : BitVec 8
  max : BitVec 8
  deriving DecidableEq, Repr

/-- `byte_interval::set`. -/
def ByteInterval.set (min_ max_ : BitVec 8) : ByteInterval :=
  if min_ > max_ then ⟨max_, min_⟩ else ⟨min_, max_⟩

/-- The loop of `count_char_buf`, `n` characters before its end. -/
def countCharLoop (str : List Char) (c : Char) : (n i ret : Nat) → Option Nat
  | 0, _, ret => some ret
  | n + 1, i, ret => do
    let x ← read str i
    countCharLoop str c n (i + 1) (if x = c then ret + 1 else ret)

/-- `count_char_buf`. -/
def countCharBuf (str : List Char) (size : Nat) (c : Char) : Option Nat :=
  countCharLoop str c size 0 0

/-- `pow10`. -/
def pow10 : List (BitVec 32) := [1, 10, 100]

/-- The loop of `atoi3`, `n` characters before its end; `pow10` is indexed
with `len_int - j - 1`, which is `n - 1`. -/
def atoi3Loop (str : List Char) : (n j : Nat) → (curInt : BitVec 32) → Option (BitVec 32)
  | 0, _, curInt => some curInt
  | n + 1, j, curInt => do
    let c ← read str j
    if c < '0' ∨ '9' < c then some (-1)
    else
      let p ← pow10[n]?
      atoi3Loop str n (j + 1) (curInt + BitVec.ofNat 32 (digit c) * p)

/-- `atoi3`. -/
def atoi3 (str : List Char) (lenInt : Nat) : Option (BitVec 32) :=
  if lenInt = 0 ∨ 4 ≤ lenInt then some (-1) else atoi3Loop str lenInt 0 0

/-- The first loop of `atoi3_trim`, `n` characters before its end: the
final `i` and `new_len`. -/
def trimFront (str : List Char) : (n i newLen : Nat) → Option (Nat × Nat)
  | 0, i, newLen => some (i, newLen)
  | n + 1, i, newLen => do
    let c ← read str i
    if isspace c then trimFront str n (i + 1) (newLen - 1) else some (i, newLen)

/-- The second loop of `atoi3_trim`, at `j = i + n`: the final `new_len`. -/
def trimBack (str : List Char) (i : Nat) : (n newLen : Nat) → Option Nat
  | 0, newLen => some newLen
  | n + 1, newLen => do
    let c ← read str (i + (n + 1))
    if isspace c then trimBack str i n (newLen - 1) else some newLen

/-- `atoi3_trim`. -/
def atoi3Trim (str : List Char) (lenInt : Nat) : Option (BitVec 32) :=
  if lenInt = 0 then some (-1)
  else do
    let (i, newLen) ← trimFront str lenInt 0 lenInt
    let newLen ← trimBack str i (lenInt - 1 - i) newLen
    atoi3 (str.drop i) newLen

/-- The first loop of `ipv4toi`, `n` characters before its end. -/
def skipSpaces (str : List Char) : (n i : Nat) → Option Nat
  | 0, i => some i
  | n + 1, i => do
    let c ← read str i
    if isspace c then skipSpaces str n (i + 1) else some i

/-- The second loop of `ipv4toi`, `n` characters before its end: the
address, and the value of `valid`. -/
def ipv4toiLoop (str : List Char) (size : Nat) (minDots : Int) :
    (n i : Nat) → (ret : BitVec 32) → (curIdx : Int) → (startIdx : Nat) →
      Option (BitVec 32 × Bool)
  | 0, _, ret, curIdx, _ => some (ret, decide (curIdx ≤ 2 - minDots))
  | n + 1, i, ret, curIdx, startIdx => do
    let c ← read str i
    if c = '.' ∨ i = size then
      if curIdx < 0 then some (0, false)
      else
        let curInt ← atoi3Trim (str.drop startIdx) (i - startIdx)
        if curInt > 0xFF then some (0, false)
        else
          ipv4toiLoop str size minDots n (i + 1) (ret ||| curInt <<< (8 * curIdx).toNat)
            (curIdx - 1) (i + 1)
    else if isspace c then ipv4toiLoop str size minDots n (i + 1) ret curIdx startIdx
    else if c < '0' ∨ '9' < c then some (0, false)
    else ipv4toiLoop str size minDots n (i + 1) ret curIdx startIdx

/-- `ipv4toi`: the address, and the value of `valid`. -/
def ipv4toi (str : List Char) (size : Nat) (minDots : Int) : Option (BitVec 32 × Bool) :=
  if size = 0 then some (0, false)
  else do
    let i ← skipSpaces str (size + 1) 0
    ipv4toiLoop str size minDots (size + 1 - i) i 0 3 i

/-! ## Block ranges -/

/-- A field written as a pair: `byte_min` is read up to the dash, `byte_max`
over `len` characters behind it. The inner `none` is `return false`. -/
def parsePair (cur : List Char) (dash len : Nat) : Option (Option ByteInterval) := do
  let byteMin ← atoi3Trim cur dash
  let byteMax ← atoi3Trim (cur.drop (dash + 1)) len
  if byteMin = -1 ∨ byteMax = -1 then some none
  else some (some (.set (byteMin.setWidth 8) (byteMax.setWidth 8)))

/-- A field written as one number of `len` characters. -/
def parseByte (cur : List Char) (len : Nat) : Option (Option ByteInterval) := do
  let byte ← atoi3Trim cur len
  if byte = -1 then some none
  else some (some (.set (byte.setWidth 8) (byte.setWidth 8)))

/-- The field before the dot at offset `dot`, the body of the `while`. -/
def parseField (cur : List Char) (dot : Nat) : Option (Option ByteInterval) :=
  match memchr cur '-' dot with
  | some dash => parsePair cur dash (dot - (dash + 1))
  | none => parseByte cur dot

/-- What the `while` leaves: `dot`, `cur` and the intervals it has set. -/
structure Fields where
  dot : Option Nat
  cur : List Char
  intervals : List ByteInterval

/-- The `while` loop, `n` intervals before `cur_interval` reaches 4. -/
def fieldsLoop : (n : Nat) → (cur : List Char) → (intervals : List ByteInterval) →
    Option (Option Fields)
  | 0, cur, intervals => some (some ⟨strchr cur '.', cur, intervals⟩)
  | n + 1, cur, intervals =>
    match strchr cur '.' with
    | none => some (some ⟨none, cur, intervals⟩)
    | some dot => do
      match ← parseField cur dot with
      | none => some none
      | some byteInterval => fieldsLoop n (cur.drop (dot + 1)) (intervals ++ [byteInterval])

/-- `(uintptr_t)dot - (uintptr_t)cur`, with `cur` at address `curAddr`. -/
def subPtr (dot : Option Nat) (curAddr : Nat) : Nat :=
  match dot with
  | some offset => offset
  | none => (2 ^ 64 - curAddr) % 2 ^ 64

/-- The last field; `sizeCur` is `size_str - (cur - str)`. -/
def parseLast (cur : List Char) (sizeCur len : Nat) : Option (Option ByteInterval) :=
  match strchr cur '-' with
  | some dash => parsePair cur dash (sizeCur - (dash + 1))
  | none => parseByte cur len

/-- The values of `for (uint32_t a = min; a <= max; a++)`. -/
def ByteInterval.values (i : ByteInterval) : List (BitVec 32) :=
  (List.range' i.min.toNat (i.max.toNat + 1 - i.min.toNat)).map (BitVec.ofNat 32)

/-- `ip_base`. -/
def ipBase (a b c : BitVec 32) : BitVec 32 := (a <<< 24) ||| (b <<< 16) ||| (c <<< 8)

/-- The three nested loops that insert the addresses. -/
def insertBlocks (exclude : Bool) (l : IpListIntervals) (i0 i1 i2 i3 : ByteInterval) :
    IpListIntervals :=
  i0.values.foldl (fun l a =>
    i1.values.foldl (fun l b =>
      i2.values.foldl (fun l c =>
        let ipMin := ipBase a b c ||| i3.min.setWidth 32
        let ipMax := ipBase a b c ||| i3.max.setWidth 32
        IpListIntervals.insert exclude l ipMin ipMax) l) l) l

/-- The block by block part of `__parse_ips`. -/
def parseBlocks (exclude : Bool) (l : IpListIntervals) (str : CString) :
    Option (Bool × IpListIntervals) := do
  match ← fieldsLoop 4 str.chars [] with
  | none => some (false, l)
  | some ⟨dot, cur, [i0, i1, i2]⟩ =>
    let offset := str.chars.length - cur.length
    match ← parseLast cur (str.chars.length - offset) (subPtr dot (str.addr + offset)) with
    | none => some (false, l)
    | some i3 => some (true, insertBlocks exclude l i0 i1 i2 i3)
  | some _ => some (false, l)

/-! ## The entry point -/

/-- The branch of `__parse_ips` for exactly one dash; `idxSep` is the offset
of the dash. -/
def parseRange (exclude : Bool) (l : IpListIntervals) (str : CString) :
    Option (Bool × IpListIntervals) := do
  let idxSep ← strchr str.chars '-'
  let part2 := str.chars.drop (idxSep + 1)
  if (← read part2 0) = '\x00' then some (false, l)
  else
    let (a, valid) ← ipv4toi str.chars idxSep 3
    if ¬ valid then some (false, l)
    else
      let sizePart2 := str.chars.length - (idxSep + 1)
      let (b, valid) ← ipv4toi part2 sizePart2 3
      if valid then
        some (true, IpListIntervals.insert exclude l (min a b) (max a b))
      else
        let b ← atoi3 part2 sizePart2
        if b > 0xFF then some (false, l)
        else
          let b := (a &&& 0xFFFFFF00) ||| b
          some (true, IpListIntervals.insert exclude l (min a b) (max a b))

/-- The branch of `__parse_ips` for one slash and no dash. -/
def parseCidr (exclude : Bool) (l : IpListIntervals) (str : CString) :
    Option (Bool × IpListIntervals) := do
  match strchr str.chars '/' with
  | none => some (false, l)
  | some slash =>
    -- the `long` is narrowed to an `int`
    let cidr := (BitVec.ofInt 32 (strtol (str.chars.drop (slash + 1)))).toInt
    if cidr < 0 then some (false, l)
    else
      let (ipStart, valid) ← ipv4toi str.chars slash 0
      if ¬ valid then some (false, l)
      else
        let l ← IpListIntervals.insertCidr exclude l ipStart cidr
        some (true, l)

/-- `__parse_ips<exclude>`: the returned `bool`, and the list after it. -/
def parseIps (exclude : Bool) (l : IpListIntervals) (str : CString) :
    Option (Bool × IpListIntervals) := do
  let sizeStr := str.chars.length
  let ndashes ← countCharBuf str.chars sizeStr '-'
  let nslashes ← countCharBuf str.chars sizeStr '/'
  if nslashes = 0 ∧ ndashes = 0 then
    let (ip, valid) ← ipv4toi str.chars sizeStr 3
    if ¬ valid then some (false, l) else some (true, IpListIntervals.insert exclude l ip ip)
  else if ndashes = 1 then
    if 0 < nslashes then some (false, l) else parseRange exclude l str
  else if 1 < nslashes then some (false, l)
  else if ndashes = 0 then parseCidr exclude l str
  else parseBlocks exclude l str

/-- `parse_ips_add`. -/
def parseIpsAdd (l : IpListIntervals) (str : CString) : Option (Bool × IpListIntervals) :=
  parseIps false l str

/-- `parse_ips_remove`. -/
def parseIpsRemove (l : IpListIntervals) (str : CString) : Option (Bool × IpListIntervals) :=
  parseIps true l str

end Leeloo.IpsParser
