import GambitCore.Basic
import GambitCore.Codec.NumberText
import Mathlib.Algebra.Ring.Int.Defs

/-!
# The command line

`parseArgs` of `main.cpp`. The arguments are read from left to right into a configuration that
starts from its defaults; the first one that is not understood, or whose value is refused, ends the
program. A later option overrides an earlier one. `std::stoi` and `std::stoull` read what stands at
the beginning of a value, and all their exceptions are caught.

What can be asked for in this way is described by `NodeConfig.Valid`: ports that exist, a number of
blocks that an `int` can hold, any chain id, and the premine that no option changes.

## Main definitions

* `NodeConfig`, `Refusal`, `parseArg`, `parseArgs`
* `NodeConfig.Valid` — the configurations that can be asked for
* `NodeConfig.arguments` — arguments that ask for one

## Main results

* `NodeConfig.Valid.parseArg` — a step keeps the configuration valid
* `parseArgs_arguments` — a valid configuration is read back from its arguments
* `exists_parseArgs_iff` — exactly the valid configurations can be asked for
-/

namespace Gambit

open Codec

/-! ### Reading the arguments -/

/-- `NodeConfig`. -/
structure NodeConfig where
  enableP2P : Bool := true
  enableRPC : Bool := false
  enableMining : Bool := false
  enableWallet : Bool := false
  mineBlocks : UInt32 := 0
  p2pPort : UInt16 := 30303
  rpcPort : UInt16 := 8545
  chainId : UInt64 := 1337
  premineAmount : UInt64 := 1000000
  deriving DecidableEq

/-- What is printed when the arguments are refused. -/
inductive Refusal
  /-- The usage, to the standard output. -/
  | usage (text : Str)
  /-- A message to the standard error. -/
  | message (text : Str)

/-- A number that an `int` can hold. -/
def asInt (n : ℤ) : Option ℤ := if n < -2 ^ 31 ∨ 2 ^ 31 ≤ n then none else some n

/-- `std::stoi`, without a result where it throws. -/
def stoi (text : Str) : Option ℤ :=
  let (negative, cs) := readSign (text.dropWhile isSpace)
  let digits := cs.takeWhile (isDigit 10)
  let n : ℤ := digitsValue 10 digits
  if digits = [] then none else asInt (if negative then -n else n)

/-- `std::stoull`, without a result where it throws. A minus sign is taken modulo `2 ^ 64`. -/
def stoull (text : Str) : Option UInt64 := (strtoul 10 text).toOption

/-- `printHelp`. -/
def printHelp (programName : Str) : Str :=
  str "Usage: " ++ programName ++ str " [options]\n\n" ++
  str "Options:\n" ++
  str "  --help              Show this help message\n" ++
  str "  --no-p2p            Disable P2P networking\n" ++
  str "  --enable-rpc        Enable RPC server\n" ++
  str "  --auto-mining       Enable continuous mining (5 sec interval)\n" ++
  str "  --mine-blocks=<n>   Mine N blocks then continue running\n" ++
  str "  --p2p-port=<port>   Set P2P port (default: 30303)\n" ++
  str "  --rpc-port=<port>   Set RPC port (default: 8545)\n" ++
  str "  --chain-id=<id>     Set chain ID (default: 1337)\n" ++
  str "\nExamples:\n" ++
  str "  " ++ programName ++ str " --mine-blocks=10 --enable-rpc\n" ++
  str "  " ++ programName ++ str " --auto-mining --rpc-port=8080\n" ++
  str "  " ++ programName ++ str " --no-p2p --mine-blocks=5\n"

/-- The value of an argument that begins with an option. -/
def valueOf (option arg : Str) : Option Str :=
  if option <+: arg then some (arg.drop option.length) else none

/-- The value of `--mine-blocks`. -/
def readBlockCount (numStr : Str) : Except Refusal UInt32 :=
  match stoi numStr with
  | none => .error (.message (str "Error: Invalid block count: " ++ numStr ++ str "\n"))
  | some num =>
    if num < 1 then .error (.message (str "Error: --mine-blocks must be at least 1\n"))
    else .ok (UInt32.ofNat num.toNat)

/-- The value of `--p2p-port` and of `--rpc-port`. -/
def readPort (name : String) (portStr : Str) : Except Refusal UInt16 :=
  match stoi portStr with
  | none =>
    .error (.message (str "Error: Invalid " ++ str name ++ str " port number: " ++ portStr ++
      str "\n"))
  | some port =>
    if port < 1 ∨ 65535 < port then
      .error (.message (str "Error: " ++ str name ++ str " port must be between 1 and 65535\n"))
    else .ok (UInt16.ofNat port.toNat)

/-- The value of `--chain-id`. -/
def readChainId (text : Str) : Except Refusal UInt64 :=
  match stoull text with
  | none => .error (.message (str "Error: Invalid chain ID: " ++ text ++ str "\n"))
  | some id => .ok id

/-- One round of the loop of `parseArgs`. -/
def parseArg (programName : Str) (config : NodeConfig) (arg : Str) : Except Refusal NodeConfig :=
  if arg = str "--help" ∨ arg = str "-h" then .error (.usage (printHelp programName))
  else if arg = str "--no-p2p" then .ok { config with enableP2P := false }
  else if arg = str "--enable-rpc" then .ok { config with enableRPC := true }
  else if arg = str "--auto-mining" then .ok { config with enableMining := true }
  else match valueOf (str "--mine-blocks=") arg with
  | some numStr => do
    let num ← readBlockCount numStr
    .ok { config with mineBlocks := num }
  | none => match valueOf (str "--p2p-port=") arg with
  | some portStr => do
    let port ← readPort "P2P" portStr
    .ok { config with p2pPort := port }
  | none => match valueOf (str "--rpc-port=") arg with
  | some portStr => do
    let port ← readPort "RPC" portStr
    .ok { config with rpcPort := port }
  | none => match valueOf (str "--chain-id=") arg with
  | some idStr => do
    let id ← readChainId idStr
    .ok { config with chainId := id }
  | none =>
    if arg = str "--wallet" then .ok { config with enableWallet := true }
    else .error (.message (str "Error: Unknown option: " ++ arg ++
      str "\nUse --help for usage information.\n"))

/-- `parseArgs`. The configuration of a refused command line is not used. -/
def parseArgs (programName : Str) (args : List Str) : Except Refusal NodeConfig :=
  args.foldlM (parseArg programName) {}

/-! ### What is read is valid -/

/-- What can be asked for. -/
structure NodeConfig.Valid (config : NodeConfig) : Prop where
  mineBlocks : config.mineBlocks.toNat < 2 ^ 31
  p2pPort : config.p2pPort ≠ 0
  rpcPort : config.rpcPort ≠ 0
  premineAmount : config.premineAmount = 1000000

theorem stoi_lt {text : Str} {n : ℤ} (h : stoi text = some n) : n < 2 ^ 31 := by
  have hasInt : ∀ {m : ℤ}, asInt m = some n → n < 2 ^ 31 := by
    intro m hm
    simp only [asInt, Option.ite_none_left_eq_some, Option.some.injEq] at hm
    omega
  simp only [stoi, Option.ite_none_left_eq_some] at h
  exact hasInt h.2

theorem readBlockCount_lt {text : Str} {num : UInt32} (h : readBlockCount text = .ok num) :
    num.toNat < 2 ^ 31 := by
  unfold readBlockCount at h
  split at h
  · cases h
  · next n hn =>
    split at h
    · cases h
    · have hlt := stoi_lt hn
      rw [← Except.ok.inj h, UInt32.toNat_ofNat_of_lt' (show n.toNat < 2 ^ 32 by omega)]
      omega

theorem readPort_ne_zero {name : String} {text : Str} {port : UInt16}
    (h : readPort name text = .ok port) : port ≠ 0 := by
  unfold readPort at h
  split at h
  · cases h
  · next n hn =>
    split at h
    · cases h
    · next hrange =>
      have hnat : (UInt16.ofNat n.toNat).toNat = n.toNat :=
        UInt16.toNat_ofNat_of_lt' (show n.toNat < 2 ^ 16 by omega)
      rintro rfl
      rw [Except.ok.inj h] at hnat
      change 0 = n.toNat at hnat
      omega

theorem exists_of_bind_eq_ok {α β : Type} {x : Except Refusal α} {f : α → Except Refusal β} {b : β}
    (h : (x >>= f) = .ok b) : ∃ a, x = .ok a ∧ f a = .ok b := by
  cases x with
  | error e => cases h
  | ok a => exact ⟨a, rfl, h⟩

/-- A step keeps the configuration valid. -/
theorem NodeConfig.Valid.parseArg {programName arg : Str} {config config' : NodeConfig}
    (hvalid : config.Valid) (h : Gambit.parseArg programName config arg = .ok config') :
    config'.Valid := by
  unfold Gambit.parseArg at h
  split at h
  · cases h
  split at h
  · obtain rfl := Except.ok.inj h
    exact { hvalid with }
  split at h
  · obtain rfl := Except.ok.inj h
    exact { hvalid with }
  split at h
  · obtain rfl := Except.ok.inj h
    exact { hvalid with }
  split at h
  · obtain ⟨num, hnum, h⟩ := exists_of_bind_eq_ok h
    obtain rfl := Except.ok.inj h
    exact { hvalid with mineBlocks := readBlockCount_lt hnum }
  split at h
  · obtain ⟨port, hport, h⟩ := exists_of_bind_eq_ok h
    obtain rfl := Except.ok.inj h
    exact { hvalid with p2pPort := readPort_ne_zero hport }
  split at h
  · obtain ⟨port, hport, h⟩ := exists_of_bind_eq_ok h
    obtain rfl := Except.ok.inj h
    exact { hvalid with rpcPort := readPort_ne_zero hport }
  split at h
  · obtain ⟨id, -, h⟩ := exists_of_bind_eq_ok h
    obtain rfl := Except.ok.inj h
    exact { hvalid with }
  split at h
  · obtain rfl := Except.ok.inj h
    exact { hvalid with }
  · cases h

/-- And so does the whole command line. -/
theorem NodeConfig.Valid.foldlM {programName : Str} {args : List Str} {config config' : NodeConfig}
    (hvalid : config.Valid) (h : args.foldlM (Gambit.parseArg programName) config = .ok config') :
    config'.Valid := by
  induction args generalizing config with
  | nil =>
    obtain rfl := Except.ok.inj h
    exact hvalid
  | cons arg args ih =>
    rw [List.foldlM_cons] at h
    obtain ⟨next, hnext, h⟩ := exists_of_bind_eq_ok h
    exact ih (hvalid.parseArg hnext) h

theorem NodeConfig.valid_default : ({} : NodeConfig).Valid := by
  constructor <;> decide

/-! ### What is valid can be asked for -/

/-- The options, in the order in which they are tried. -/
def options : List Str :=
  [str "--help", str "-h", str "--no-p2p", str "--enable-rpc", str "--auto-mining",
    str "--mine-blocks=", str "--p2p-port=", str "--rpc-port=", str "--chain-id=", str "--wallet"]

/-- No option begins with another. -/
theorem options_apart : options.Pairwise fun a b => ¬ a <+: b ∧ ¬ b <+: a := by decide +kernel

theorem append_ne {a b : Str} (h : ¬ a <+: b) (text : Str) : a ++ text ≠ b := by
  rintro rfl
  exact h (List.prefix_append a text)

theorem ne_of_apart {a b : Str} (h : ¬ a <+: b) : a ≠ b := by
  rintro rfl
  exact h (List.prefix_refl a)

theorem valueOf_append (option text : Str) : valueOf option (option ++ text) = some text := by
  rw [valueOf, if_pos (List.prefix_append option text), List.drop_left]

theorem valueOf_append_of_apart {a b : Str} (h : ¬ a <+: b) (h' : ¬ b <+: a) (text : Str) :
    valueOf b (a ++ text) = none := by
  refine if_neg fun hb => ?_
  -- Of two beginnings of one text, the shorter begins the longer.
  rcases Nat.le_total a.length b.length with hle | hle
  · exact h (List.prefix_of_prefix_length_le (List.prefix_append a text) hb hle)
  · exact h' (List.prefix_of_prefix_length_le hb (List.prefix_append a text) hle)

theorem valueOf_of_apart {a b : Str} (h' : ¬ b <+: a) : valueOf b a = none := if_neg h'

section

variable (programName : Str) (config : NodeConfig) (text : Str)

/-- An argument with a value is read by the branch of its option. -/
theorem parseArg_values :
    (parseArg programName config (str "--mine-blocks=" ++ text) = do
      let num ← readBlockCount text
      .ok { config with mineBlocks := num }) ∧
    (parseArg programName config (str "--p2p-port=" ++ text) = do
      let port ← readPort "P2P" text
      .ok { config with p2pPort := port }) ∧
    (parseArg programName config (str "--rpc-port=" ++ text) = do
      let port ← readPort "RPC" text
      .ok { config with rpcPort := port }) ∧
    (parseArg programName config (str "--chain-id=" ++ text) = do
      let id ← readChainId text
      .ok { config with chainId := id }) := by
  have hapart := options_apart
  simp only [options, List.pairwise_cons, List.forall_mem_cons, List.not_mem_nil] at hapart
  simp [parseArg, hapart, append_ne, valueOf_append, valueOf_append_of_apart]

/-- So is an option without one. -/
theorem parseArg_flags :
    parseArg programName config (str "--no-p2p") = .ok { config with enableP2P := false } ∧
    parseArg programName config (str "--enable-rpc") = .ok { config with enableRPC := true } ∧
    parseArg programName config (str "--auto-mining") = .ok { config with enableMining := true } ∧
    parseArg programName config (str "--wallet") = .ok { config with enableWallet := true } := by
  have hapart := options_apart
  simp only [options, List.pairwise_cons, List.forall_mem_cons, List.not_mem_nil] at hapart
  simp [parseArg, hapart, ne_of_apart, valueOf_of_apart]

end

/-! ### Decimal values -/

theorem stoi_of_isNumber {text : Str} {n : ℕ} (h : IsNumber 10 text n) (hlt : n < 2 ^ 31) :
    stoi text = some n := by
  obtain ⟨c, cs, rfl⟩ := List.exists_cons_of_ne_nil h.ne_nil
  have hc : isDigit 10 c := h.digits c List.mem_cons_self
  have hall : (c :: cs).takeWhile (isDigit 10) = c :: cs := List.takeWhile_eq_self_iff.mpr h.digits
  simp only [stoi, readSign_dropWhile (by decide) hc, hall, h.value, if_neg (List.cons_ne_nil c cs),
    Bool.false_eq_true, if_false]
  exact if_neg (by omega)

theorem stoull_of_isNumber {text : Str} {n : ℕ} (h : IsNumber 10 text n) (hlt : n < 2 ^ 64) :
    stoull text = some (UInt64.ofNat n) := by
  rw [stoull, strtoul_of_isNumber (by decide) h, if_neg (Nat.not_le.mpr hlt)]
  rfl

theorem readBlockCount_toString {n : UInt32} (hpos : n ≠ 0) (hlt : n.toNat < 2 ^ 31) :
    readBlockCount (str (toString n.toNat)) = .ok n := by
  have hne : n.toNat ≠ 0 := fun h => hpos (UInt32.toNat_inj.mp h)
  have hread : stoi (str (toString n.toNat)) = some (n.toNat : ℤ) :=
    stoi_of_isNumber (isNumber_toString n.toNat) hlt
  simp only [readBlockCount, hread]
  rw [if_neg (by omega), Int.toNat_natCast, UInt32.ofNat_toNat]

theorem readPort_toString (name : String) {port : UInt16} (hpos : port ≠ 0) :
    readPort name (str (toString port.toNat)) = .ok port := by
  have hne : port.toNat ≠ 0 := fun h => hpos (UInt16.toNat_inj.mp h)
  have hlt : port.toNat < 2 ^ 16 := port.toNat_lt
  have hread : stoi (str (toString port.toNat)) = some (port.toNat : ℤ) :=
    stoi_of_isNumber (isNumber_toString port.toNat) (by omega)
  simp only [readPort, hread]
  rw [if_neg (by omega), Int.toNat_natCast, UInt16.ofNat_toNat]

theorem readChainId_toString (id : UInt64) : readChainId (str (toString id.toNat)) = .ok id := by
  have hread : stoull (str (toString id.toNat)) = some id := by
    have h := stoull_of_isNumber (isNumber_toString id.toNat) id.toNat_lt
    rwa [UInt64.ofNat_toNat] at h
  simp only [readChainId, hread]

/-! ### Arguments for a configuration -/

/-- Arguments that ask for a configuration. -/
def NodeConfig.arguments (config : NodeConfig) : List Str :=
  (if config.enableP2P = false then [str "--no-p2p"] else []) ++
  (if config.enableRPC then [str "--enable-rpc"] else []) ++
  (if config.enableMining then [str "--auto-mining"] else []) ++
  (if config.enableWallet then [str "--wallet"] else []) ++
  (if config.mineBlocks ≠ 0
    then [str "--mine-blocks=" ++ str (toString config.mineBlocks.toNat)] else []) ++
  [str "--p2p-port=" ++ str (toString config.p2pPort.toNat),
    str "--rpc-port=" ++ str (toString config.rpcPort.toNat),
    str "--chain-id=" ++ str (toString config.chainId.toNat)]

/-- An argument that may be missing. -/
theorem foldlM_optional {programName arg : Str} {given : Prop} [Decidable given]
    {config : NodeConfig} (config' : NodeConfig) (more : List Str)
    (hgiven : given → parseArg programName config arg = .ok config')
    (hmissing : ¬ given → config' = config) :
    ((if given then [arg] else []) ++ more).foldlM (parseArg programName) config =
      more.foldlM (parseArg programName) config' := by
  split
  · next h =>
    rw [List.singleton_append, List.foldlM_cons, hgiven h]
    rfl
  · next h => rw [List.nil_append, hmissing h]

/-- A valid configuration is read back from its arguments. -/
theorem parseArgs_arguments (programName : Str) {config : NodeConfig} (h : config.Valid) :
    parseArgs programName config.arguments = .ok config := by
  obtain ⟨p2p, rpc, mining, wallet, blocks, p2pPort, rpcPort, chainId, premine⟩ := config
  obtain ⟨hblocks, hp2pPort, hrpcPort, rfl⟩ := h
  have hflags := parseArg_flags programName
  have hvalues := parseArg_values programName
  rw [parseArgs, NodeConfig.arguments]
  simp only [List.append_assoc]
  -- The fields are filled in one after the other.
  refine (foldlM_optional ⟨p2p, false, false, false, 0, 30303, 8545, 1337, 1000000⟩ _
    (fun hgiven => ?_) fun hmissing => ?_).trans ?_
  · rw [(hflags _).1, hgiven]
  · rw [Bool.of_not_eq_false hmissing]
  refine (foldlM_optional ⟨p2p, rpc, false, false, 0, 30303, 8545, 1337, 1000000⟩ _
    (fun hgiven => ?_) fun hmissing => ?_).trans ?_
  · rw [(hflags _).2.1, hgiven]
  · rw [Bool.of_not_eq_true hmissing]
  refine (foldlM_optional ⟨p2p, rpc, mining, false, 0, 30303, 8545, 1337, 1000000⟩ _
    (fun hgiven => ?_) fun hmissing => ?_).trans ?_
  · rw [(hflags _).2.2.1, hgiven]
  · rw [Bool.of_not_eq_true hmissing]
  refine (foldlM_optional ⟨p2p, rpc, mining, wallet, 0, 30303, 8545, 1337, 1000000⟩ _
    (fun hgiven => ?_) fun hmissing => ?_).trans ?_
  · rw [(hflags _).2.2.2, hgiven]
  · rw [Bool.of_not_eq_true hmissing]
  refine (foldlM_optional ⟨p2p, rpc, mining, wallet, blocks, 30303, 8545, 1337, 1000000⟩ _
    (fun hgiven => ?_) fun hmissing => ?_).trans ?_
  · rw [(hvalues _ _).1, readBlockCount_toString hgiven hblocks]
    rfl
  · rw [not_not.mp hmissing]
  simp only [List.foldlM_cons, List.foldlM_nil, (hvalues _ _).2.1, (hvalues _ _).2.2.1,
    (hvalues _ _).2.2.2, readPort_toString _ hp2pPort, readPort_toString _ hrpcPort,
    readChainId_toString]
  rfl

/-- Exactly the valid configurations can be asked for. -/
theorem exists_parseArgs_iff (programName : Str) (config : NodeConfig) :
    (∃ args, parseArgs programName args = .ok config) ↔ config.Valid := by
  constructor
  · rintro ⟨args, h⟩
    exact NodeConfig.valid_default.foldlM h
  · intro h
    exact ⟨config.arguments, parseArgs_arguments programName h⟩

end Gambit
