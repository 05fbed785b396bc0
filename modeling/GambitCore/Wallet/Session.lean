import GambitCore.Semantics.Run
import GambitCore.Wallet.Derivation
import GambitCore.Wallet.Encryption
import GambitCore.Wallet.Mnemonic

/-!
# A wallet in use

The public interface of `Wallet`: a wallet is created with a random phrase or imported with a given
one, accounts are derived from its seed, looked up and exported, and the keystore file is written. A
session is a run of such calls. One that throws leaves the wallet as it is, since nothing is changed
before the last line that can throw.

Whatever the calls are, every account stays the one that its path stands for under the phrase, and
so a key that is exported for an address is a key of that address. A wallet is therefore its phrase
and the accounts that were added, its salt and file aside: imported elsewhere and given the same
accounts, it answers every call as before. But the phrase is validated only when it is imported, not
when it is generated. And all of this is about phrases that OpenSSL can read: from one whose length
does not fit an `int` no seed is derived, and nobody notices.

Files are found under paths, and two paths may lead to one file. `save` notices when the file cannot
be opened, but not when what it writes does not get there.

## Main definitions

* `Wallet`, `Wallet.create`, `Wallet.importMnemonic`, `Wallet.load`
* `Wallet.Disk`, `Wallet.SaveDraw` — the files, and what a `save` meets
* `WalletCall`, `WalletAnswer`, `walletMachine` — the calls, what they return, and sessions
* `Wallet.Derived` — every account is the one its path stands for
* `Wallet.Same` — two wallets with one phrase and the same accounts

## Main results

* `Wallet.addAccount_eq_ok` — what a new account is
* `Wallet.exists_save` — a `save` goes through where the file can be opened
* `exported_keys_own_addresses` — a key that is exported belongs to the address it was asked for
* `restored_iff` — a wallet can be restored from its phrase exactly when the phrase validates
-/

namespace Gambit

namespace Wallet

/-! ### The wallet -/

/-- What the wallet is linked with. -/
structure Libraries where
  build : Build
  crypto : CryptoLibrary
  sha256 : Bytes → Bytes32
  hmacSHA512 : Bytes → Bytes → FixedBytes 64
  curve : Secp256k1

/-- `Wallet::Account`. -/
structure Account (S : Secp256k1) where
  name : Str
  address : Address
  keypair : KeyPair S
  derivationPath : Str

/-- The files of the machine. A path leads to a place, and several paths may lead to the same. -/
structure Disk where
  locate : Str → ℕ
  /-- Whether a file can be opened for writing there. -/
  writable : ℕ → Bool
  files : ℕ → Option Str

/-- What a call of `save` meets. -/
structure SaveDraw where
  /-- The IV that is drawn. -/
  iv : FixedBytes 12
  /-- What the buffer for the key holds. -/
  key : FixedBytes 64
  /-- How many bytes get to the file, if not all do. -/
  written : Option ℕ

/-- What the file holds after the text was written to it. The stream is not asked whether a write
has failed. -/
def SaveDraw.kept (draw : SaveDraw) (text : Str) : Str :=
  match draw.written with
  | none => text
  | some n => text.take n

/-- What `create` and `importMnemonic` meet. -/
structure OpenDraw where
  saltBytes : FixedBytes 16
  /-- What the buffer for the seed holds. -/
  seed : FixedBytes 64
  save : SaveDraw

/-- The text of an exception that ends in the path of a file. -/
def fileError {α : Type} (what : String) (path : Str) : Result α :=
  runtimeError (what ++ String.ofList (path.map fun c => Char.ofNat c.toNat))

end Wallet

/-- `Wallet`. The last field holds `masterKey_` and `masterChainCode_`. -/
structure Wallet (S : Secp256k1) where
  walletPath : Str
  mnemonic : Str
  salt : Str
  accounts : List (Wallet.Account S)
  master : Bytes32 × Bytes32

namespace Wallet

section

variable (lib : Libraries)

/-- `mnemonicToSeed`, with what the buffer for the seed holds. -/
def mnemonicToSeed (buffer : FixedBytes 64) (mnemonic passphrase : Str) : FixedBytes 64 :=
  pbkdf2SHA512 lib.crypto lib.build buffer mnemonic (str "TREZOR" ++ passphrase) 2048

/-- `addAccount`. -/
def addAccount (w : Wallet lib.curve) (name derivationPath : Str) : Result (Wallet lib.curve) := do
  let keypair ← deriveKeyFromPath lib.hmacSHA512 lib.curve w.master derivationPath
  let address ← Address.fromPublicKey keypair.pub.val
  return { w with accounts := w.accounts ++ [⟨name, address, keypair, derivationPath⟩] }

/-- An entry of the keystore. -/
def accountText (account : Account lib.curve) : Str :=
  str "    \x7b\n" ++
  str "      \"name\": \"" ++ account.name ++ str "\",\n" ++
  str "      \"address\": \"" ++ account.address.toHex true ++ str "\",\n" ++
  str "      \"path\": \"" ++ account.derivationPath ++ str "\"\n" ++
  str "    \x7d"

/-- The keystore. -/
def keystoreText (w : Wallet lib.curve) (encryptedMnemonic : Str) : Str :=
  str "\x7b\n" ++
  str "  \"version\": 1,\n" ++
  str "  \"salt\": \"" ++ w.salt ++ str "\",\n" ++
  str "  \"mnemonic\": \"" ++ encryptedMnemonic ++ str "\",\n" ++
  str "  \"accounts\": [\n" ++
  (str ",\n").intercalate (w.accounts.map (accountText lib)) ++
  str "\n  ]\n" ++
  str "\x7d\n"

/-- The disk with a text written to the file of a path. -/
def Disk.write (disk : Disk) (path text : Str) : Disk :=
  { disk with files := Function.update disk.files (disk.locate path) (some text) }

/-- `save`. -/
def save (w : Wallet lib.curve) (draw : SaveDraw) (password : Str) (disk : Disk) :
    Result Disk := do
  let encryptedMnemonic ←
    encryptAES256GCM lib.crypto lib.build w.salt draw.iv draw.key w.mnemonic password
  if disk.writable (disk.locate w.walletPath) then
    return disk.write w.walletPath (draw.kept (w.keystoreText lib encryptedMnemonic))
  else fileError "Failed to create wallet file: " w.walletPath

/-- The constructor, the salt, and `initializeFromSeed`. -/
def start (walletPath mnemonic : Str) (draw : OpenDraw) : Wallet lib.curve where
  walletPath
  mnemonic
  salt := toHex draw.saltBytes.val
  accounts := []
  master := initializeFromSeed lib.hmacSHA512 (mnemonicToSeed lib draw.seed mnemonic []).val

/-- The default of `addAccount`. -/
def defaultPath : Str := str "m/44'/60'/0'/0/0"

/-- What `create` and `importMnemonic` do with a phrase. -/
def openWith (mnemonic : Str) (draw : OpenDraw) (walletPath password : Str) (disk : Disk) :
    Result (Wallet lib.curve × Disk) := do
  let wallet ← (start lib walletPath mnemonic draw).addAccount lib (str "Default") defaultPath
  let disk ← wallet.save lib draw.save password disk
  return (wallet, disk)

/-- `create`. -/
def create (entropy : FixedBytes 16) (draw : OpenDraw) (walletPath password : Str) (disk : Disk) :
    Result (Wallet lib.curve × Disk) :=
  openWith lib (generateMnemonic lib.sha256 entropy) draw walletPath password disk

/-- `importMnemonic`. -/
def importMnemonic (mnemonic : Str) (draw : OpenDraw) (walletPath password : Str) (disk : Disk) :
    Result (Wallet lib.curve × Disk) :=
  if !validateMnemonic lib.sha256 mnemonic then runtimeError "Invalid BIP39 mnemonic"
  else openWith lib mnemonic draw walletPath password disk

end

/-- `load`: a keystore is never read back. -/
def load {S : Secp256k1} (walletPath : Str) (disk : Disk) : Result (Wallet S) :=
  match disk.files (disk.locate walletPath) with
  | none => fileError "Failed to open wallet file: " walletPath
  | some _ => runtimeError "Wallet loading not yet implemented"

section

variable {S : Secp256k1} (w : Wallet S)

/-- `getAccount` by address. -/
def getAccount (addr : Address) : Option (Account S) :=
  w.accounts.find? fun account => account.address = addr

/-- `getAccount` by name. -/
def getAccountNamed (name : Str) : Option (Account S) :=
  w.accounts.find? fun account => account.name = name

/-- `exportPrivateKey`. The password is not used. -/
def exportPrivateKey (addr : Address) (_password : Str) : Result Str :=
  match w.getAccount addr with
  | none => runtimeError "Account not found"
  | some account => .ok (toHex account.keypair.priv.val)

/-- `exportMnemonic`. The password is not used. -/
def exportMnemonic (_password : Str) : Str := w.mnemonic

end

end Wallet

/-! ### Sessions -/

/-- A call on a wallet. -/
inductive WalletCall
  | addAccount (name derivationPath : Str)
  | getAccount (addr : Address)
  | getAccountNamed (name : Str)
  | listAccounts
  | exportPrivateKey (addr : Address) (password : Str)
  | exportMnemonic (password : Str)
  | save (draw : Wallet.SaveDraw) (password : Str)

/-- What a call returns, or throws. -/
inductive WalletAnswer (S : Secp256k1)
  | added (result : Result Unit)
  | account (result : Option (Wallet.Account S))
  | accounts (result : List (Wallet.Account S))
  | privateKey (addr : Address) (result : Result Str)
  | mnemonic (result : Str)
  | saved (result : Result Unit)

/-- The calls that can change a wallet. -/
def WalletCall.addsAccount : WalletCall → Bool
  | addAccount _ _ => true
  | _ => false

namespace Wallet

variable (lib : Libraries)

/-- A call on a wallet and the files. -/
def call (s : Wallet lib.curve × Disk) :
    WalletCall → (Wallet lib.curve × Disk) × List (WalletAnswer lib.curve)
  | .addAccount name derivationPath =>
    match s.1.addAccount lib name derivationPath with
    | .ok w => ((w, s.2), [.added (.ok ())])
    | .error e => (s, [.added (.error e)])
  | .getAccount addr => (s, [.account (s.1.getAccount addr)])
  | .getAccountNamed name => (s, [.account (s.1.getAccountNamed name)])
  | .listAccounts => (s, [.accounts s.1.accounts])
  | .exportPrivateKey addr password => (s, [.privateKey addr (s.1.exportPrivateKey addr password)])
  | .exportMnemonic password => (s, [.mnemonic (s.1.exportMnemonic password)])
  | .save draw password =>
    match s.1.save lib draw password s.2 with
    | .ok disk => ((s.1, disk), [.saved (.ok ())])
    | .error e => (s, [.saved (.error e)])

end Wallet

/-- Sessions. -/
def walletMachine (lib : Wallet.Libraries) :
    Machine (Wallet lib.curve × Wallet.Disk) WalletCall (WalletAnswer lib.curve) :=
  ⟨Wallet.call lib⟩

/-! ### Accounts are what their paths stand for -/

theorem KeyPair.eq_of_fromPrivateKey {S : Secp256k1} {priv : Bytes32} {keypair : KeyPair S}
    (h : KeyPair.fromPrivateKey S priv = .ok keypair) :
    keypair.priv = priv ∧ S.pubkeyCreate priv = some keypair.pub := by
  unfold KeyPair.fromPrivateKey at h
  split at h
  · cases h
  split at h
  · cases h
  · next pub hpub =>
    obtain rfl := Except.ok.inj h
    exact ⟨rfl, hpub⟩

theorem KeyPair.fromPrivateKey_of_valid {S : Secp256k1} {priv : Bytes32} {pub : FixedBytes 64}
    (hverify : S.seckeyVerify priv = true) (hpub : S.pubkeyCreate priv = some pub) :
    KeyPair.fromPrivateKey S priv = .ok ⟨priv, pub, .inr hpub⟩ := by
  rw [KeyPair.fromPrivateKey, if_neg (by simp [hverify])]
  split
  · next hnone =>
    rw [hnone] at hpub
    cases hpub
  · next pub' hsome =>
    obtain rfl := Option.some.inj (hsome.symm.trans hpub)
    rfl

namespace Wallet

variable {lib : Libraries} {w w' : Wallet lib.curve}

/-- What a new account is. -/
theorem addAccount_eq_ok {name path : Str} :
    w.addAccount lib name path = .ok w' ↔ ∃ keypair,
      deriveKeyFromPath lib.hmacSHA512 lib.curve w.master path = .ok keypair ∧
      w' = { w with accounts := w.accounts ++ [⟨name, addressOf keypair.pub, keypair, path⟩] } := by
  unfold addAccount
  rw [bind_eq_ok]
  refine exists_congr fun keypair => and_congr_right fun _ => ?_
  rw [Address.fromPublicKey_eq]
  exact ⟨fun h => (Except.ok.inj h).symm, fun h => congrArg _ h.symm⟩

variable (lib) in
/-- The master key of a phrase. -/
def masterOf (buffer : FixedBytes 64) (mnemonic : Str) : Bytes32 × Bytes32 :=
  initializeFromSeed lib.hmacSHA512 (mnemonicToSeed lib buffer mnemonic []).val

/-- The master key of a phrase that can be read depends on nothing else. -/
theorem masterOf_congr {mnemonic : Str}
    (hshort : lib.build = .openssl → mnemonic.length < 2 ^ 31) (buffer buffer' : FixedBytes 64) :
    masterOf lib buffer mnemonic = masterOf lib buffer' mnemonic := by
  have hread (h : lib.build = .openssl) : (passwordInput mnemonic).isSome := by
    rw [passwordInput_of_lt (hshort h)]
    rfl
  have hsalt : (str "TREZOR" ++ []).length < 2 ^ 31 := by decide
  rw [masterOf, mnemonicToSeed, pbkdf2SHA512_of_fits hread hsalt buffer buffer']
  rfl

/-- Every account is the one that its path stands for under the phrase. -/
structure Derived (w : Wallet lib.curve) : Prop where
  master_eq : ∃ buffer, w.master = masterOf lib buffer w.mnemonic
  keypair_eq : ∀ account ∈ w.accounts,
    deriveKeyFromPath lib.hmacSHA512 lib.curve w.master account.derivationPath = .ok account.keypair
  address_eq : ∀ account ∈ w.accounts, account.address = addressOf account.keypair.pub

theorem derived_start (walletPath mnemonic : Str) (draw : OpenDraw) :
    (start lib walletPath mnemonic draw).Derived :=
  ⟨⟨draw.seed, rfl⟩, by simp [start], by simp [start]⟩

theorem Derived.addAccount (h : w.Derived) {name path : Str}
    (hadd : w.addAccount lib name path = .ok w') : w'.Derived ∧ w'.mnemonic = w.mnemonic := by
  obtain ⟨keypair, hkeypair, rfl⟩ := addAccount_eq_ok.mp hadd
  refine ⟨⟨h.master_eq, fun account haccount => ?_, fun account haccount => ?_⟩, rfl⟩
  · rcases List.mem_append.mp haccount with hold | hnew
    · exact h.keypair_eq account hold
    · obtain rfl := List.mem_singleton.mp hnew
      exact hkeypair
  · rcases List.mem_append.mp haccount with hold | hnew
    · exact h.address_eq account hold
    · obtain rfl := List.mem_singleton.mp hnew
      rfl

/-- What a call leaves: the wallet and the files as they were, an account more, or the files as
`save` left them. -/
inductive CallCase (s : Wallet lib.curve × Disk) (c : WalletCall) : Prop
  | quiet (hnext : (call lib s c).1 = s)
  | added {name path : Str} {w' : Wallet lib.curve} (hc : c = .addAccount name path)
      (hadd : s.1.addAccount lib name path = .ok w') (hnext : (call lib s c).1 = (w', s.2))
  | saved {draw : SaveDraw} {password : Str} {disk' : Disk} (hc : c = .save draw password)
      (hsave : s.1.save lib draw password s.2 = .ok disk') (hnext : (call lib s c).1 = (s.1, disk'))

theorem callCase (s : Wallet lib.curve × Disk) (c : WalletCall) : CallCase s c := by
  cases c with
  | addAccount name path =>
    cases hadd : s.1.addAccount lib name path with
    | ok w' => exact .added rfl hadd (by simp only [call, hadd])
    | error e => exact .quiet (by simp only [call, hadd])
  | save draw password =>
    cases hsave : s.1.save lib draw password s.2 with
    | ok disk' => exact .saved rfl hsave (by simp only [call, hsave])
    | error e => exact .quiet (by simp only [call, hsave])
  | _ => exact .quiet rfl

/-- No call touches the phrase or an account. -/
theorem Derived.call (h : w.Derived) (disk : Disk) (c : WalletCall) :
    (call lib (w, disk) c).1.1.Derived ∧ (call lib (w, disk) c).1.1.mnemonic = w.mnemonic := by
  cases callCase (w, disk) c with
  | quiet hnext => exact ⟨by rwa [hnext], by rw [hnext]⟩
  | added _ hadd hnext =>
    rw [hnext]
    exact h.addAccount hadd
  | saved _ _ hnext => exact ⟨by rwa [hnext], by rw [hnext]⟩

/-- The text is a key of the address, and a path leads to it from the phrase, whatever the buffer of
the seed has held. -/
def KeyOf (lib : Libraries) (mnemonic : Str) (addr : Address) (text : Str) : Prop :=
  ∃ key pub path indices, text = toHex key.val ∧ lib.curve.pubkeyCreate key = some pub ∧
    addressOf pub = addr ∧ parseBIP32Path path = .ok indices ∧
    ∀ buffer, (derivePath lib.hmacSHA512 (masterOf lib buffer mnemonic) indices).1 = key

theorem Derived.exportPrivateKey (h : w.Derived)
    (hshort : lib.build = .openssl → w.mnemonic.length < 2 ^ 31) {addr : Address}
    {password text : Str} (hexport : w.exportPrivateKey addr password = .ok text) :
    KeyOf lib w.mnemonic addr text := by
  unfold Wallet.exportPrivateKey at hexport
  split at hexport
  · cases hexport
  · next account haccount =>
    -- The first account with the address; others may have it too, under the same path or another.
    have hmem : account ∈ w.accounts := List.mem_of_find?_eq_some haccount
    have haddr : account.address = addr := by simpa using List.find?_some haccount
    obtain ⟨indices, hindices, hkey⟩ := bind_eq_ok.mp (h.keypair_eq account hmem)
    obtain ⟨hpriv, hpub⟩ := KeyPair.eq_of_fromPrivateKey hkey
    obtain ⟨buffer₀, hmaster⟩ := h.master_eq
    refine ⟨account.keypair.priv, account.keypair.pub, account.derivationPath, indices,
      (Except.ok.inj hexport).symm, ?_, ?_, hindices, fun buffer => ?_⟩
    · rw [hpriv, hpub]
    · rw [← haddr, h.address_eq account hmem]
    · rw [hpriv, hmaster, masterOf_congr hshort buffer buffer₀]

/-- Only `exportPrivateKey` answers with a key. -/
theorem exists_exportPrivateKey {s : Wallet lib.curve × Disk} {c : WalletCall} {addr : Address}
    {result : Result Str} (h : .privateKey addr result ∈ (call lib s c).2) :
    ∃ password, s.1.exportPrivateKey addr password = result := by
  cases c with
  | exportPrivateKey addr' password =>
    obtain ⟨rfl, rfl⟩ := WalletAnswer.privateKey.inj (List.mem_singleton.mp h)
    exact ⟨password, rfl⟩
  | addAccount name path =>
    cases hadd : s.1.addAccount lib name path <;> simp [call, hadd] at h
  | save draw password => cases hsave : s.1.save lib draw password s.2 <;> simp [call, hsave] at h
  | _ => cases List.mem_singleton.mp h

/-- A wallet that `create` or `importMnemonic` has returned, with the files it has left. -/
inductive Opened (lib : Libraries) (draw : OpenDraw) (password : Str) :
    Wallet lib.curve → Disk → Prop
  | created {entropy walletPath disk w disk'}
    (h : create lib entropy draw walletPath password disk = .ok (w, disk')) :
    Opened lib draw password w disk'
  | imported {mnemonic walletPath disk w disk'}
    (h : importMnemonic lib mnemonic draw walletPath password disk = .ok (w, disk')) :
    Opened lib draw password w disk'

theorem openWith_eq_ok {mnemonic walletPath password : Str} {draw : OpenDraw}
    {disk disk' : Disk} :
    openWith lib mnemonic draw walletPath password disk = .ok (w, disk') ↔
      (start lib walletPath mnemonic draw).addAccount lib (str "Default") defaultPath = .ok w ∧
      w.save lib draw.save password disk = .ok disk' := by
  unfold openWith
  constructor
  · intro h
    obtain ⟨w₁, hadd, h⟩ := bind_eq_ok.mp h
    obtain ⟨disk₁, hsave, h⟩ := bind_eq_ok.mp h
    obtain ⟨rfl, rfl⟩ := Prod.mk.inj (Except.ok.inj h)
    exact ⟨hadd, hsave⟩
  · rintro ⟨hadd, hsave⟩
    exact bind_eq_ok.mpr ⟨w, hadd, bind_eq_ok.mpr ⟨disk', hsave, rfl⟩⟩

/-- A wallet is opened with its phrase: the first account is added, and the wallet saved. -/
theorem Opened.exists_start {draw : OpenDraw} {password : Str} {disk' : Disk}
    (h : Opened lib draw password w disk') :
    ∃ walletPath disk,
      (start lib walletPath w.mnemonic draw).addAccount lib (str "Default") defaultPath = .ok w ∧
      w.save lib draw.save password disk = .ok disk' := by
  obtain ⟨mnemonic, walletPath, disk, hopen⟩ : ∃ mnemonic walletPath disk,
      openWith lib mnemonic draw walletPath password disk = .ok (w, disk') := by
    cases h with
    | created h => exact ⟨_, _, _, h⟩
    | imported h =>
      unfold importMnemonic at h
      split at h
      · cases h
      · exact ⟨_, _, _, h⟩
  obtain ⟨hadd, hsave⟩ := openWith_eq_ok.mp hopen
  have hmnemonic : w.mnemonic = mnemonic :=
    ((derived_start walletPath mnemonic draw).addAccount hadd).2
  exact ⟨walletPath, disk, hmnemonic ▸ hadd, hsave⟩

theorem Opened.derived {draw : OpenDraw} {password : Str} {disk : Disk}
    (h : Opened lib draw password w disk) : w.Derived := by
  obtain ⟨walletPath, -, hadd, -⟩ := h.exists_start
  exact ((derived_start walletPath w.mnemonic draw).addAccount hadd).1

/-! ### Saving -/

/-- Where the file can be opened, a phrase that can be read is encrypted and the text written. -/
theorem exists_save (hshort : lib.build = .openssl → w.mnemonic.length < 2 ^ 31) {disk : Disk}
    (hwritable : disk.writable (disk.locate w.walletPath) = true) (draw : SaveDraw)
    (password : Str) :
    ∃ encrypted,
      encryptAES256GCM lib.crypto lib.build w.salt draw.iv draw.key w.mnemonic password =
        .ok encrypted ∧
      w.save lib draw password disk =
        .ok (disk.write w.walletPath (draw.kept (w.keystoreText lib encrypted))) := by
  obtain ⟨encrypted, hencrypt⟩ : ∃ encrypted,
      encryptAES256GCM lib.crypto lib.build w.salt draw.iv draw.key w.mnemonic password =
        .ok encrypted := by
    unfold encryptAES256GCM
    split
    · next hbuild =>
      rw [castInput_of_lt (hshort hbuild)]
      exact ⟨_, rfl⟩
    · exact ⟨_, rfl⟩
  refine ⟨encrypted, hencrypt, ?_⟩
  rw [save, hencrypt]
  exact if_pos hwritable

/-- What a `save` that returns has done. -/
theorem exists_of_save {draw : SaveDraw} {password : Str} {disk disk' : Disk}
    (h : w.save lib draw password disk = .ok disk') :
    disk.writable (disk.locate w.walletPath) = true ∧
      ∃ text, disk' = disk.write w.walletPath text := by
  obtain ⟨encrypted, -, hwrite⟩ := bind_eq_ok.mp h
  by_cases hwritable : disk.writable (disk.locate w.walletPath) = true
  · rw [if_pos hwritable] at hwrite
    exact ⟨hwritable, _, (Except.ok.inj hwrite).symm⟩
  · rw [if_neg hwritable] at hwrite
    cases hwrite

/-- A file that has been written can be opened again. -/
theorem writable_of_save {draw : SaveDraw} {password : Str} {disk disk' : Disk}
    (h : w.save lib draw password disk = .ok disk') :
    disk'.writable (disk'.locate w.walletPath) = true := by
  obtain ⟨hwritable, text, rfl⟩ := exists_of_save h
  exact hwritable

/-- What no call changes: the phrase, the salt, where the wallet is saved and whether it can be. -/
structure Fixed (s t : Wallet lib.curve × Disk) : Prop where
  walletPath : t.1.walletPath = s.1.walletPath
  mnemonic : t.1.mnemonic = s.1.mnemonic
  salt : t.1.salt = s.1.salt
  locate : t.2.locate = s.2.locate
  writable : t.2.writable = s.2.writable

theorem Fixed.refl (s : Wallet lib.curve × Disk) : Fixed s s := ⟨rfl, rfl, rfl, rfl, rfl⟩

theorem Fixed.trans {s t u : Wallet lib.curve × Disk} (h : Fixed s t) (h' : Fixed t u) :
    Fixed s u :=
  ⟨h'.walletPath.trans h.walletPath, h'.mnemonic.trans h.mnemonic, h'.salt.trans h.salt,
    h'.locate.trans h.locate, h'.writable.trans h.writable⟩

theorem fixed_call (s : Wallet lib.curve × Disk) (c : WalletCall) : Fixed s (call lib s c).1 := by
  cases callCase s c with
  | quiet hnext =>
    rw [hnext]
    exact .refl s
  | added _ hadd hnext =>
    obtain ⟨keypair, -, rfl⟩ := addAccount_eq_ok.mp hadd
    rw [hnext]
    exact ⟨rfl, rfl, rfl, rfl, rfl⟩
  | saved _ hsave hnext =>
    obtain ⟨-, text, rfl⟩ := exists_of_save hsave
    rw [hnext]
    exact ⟨rfl, rfl, rfl, rfl, rfl⟩

theorem fixed_run (s : Wallet lib.curve × Disk) (calls : List WalletCall) :
    Fixed s ((walletMachine lib).run s calls).1 :=
  Machine.run_preserves (Fixed s) (fun t c h => h.trans (fixed_call t c)) (.refl s) calls

/-- Whether a wallet can be saved does not change. -/
theorem Fixed.saves {s t : Wallet lib.curve × Disk} (h : Fixed s t)
    (hwritable : s.2.writable (s.2.locate s.1.walletPath) = true) :
    t.2.writable (t.2.locate t.1.walletPath) = true := by
  rwa [h.walletPath, h.locate, h.writable]

/-- A wallet is opened where the file can be, if the first key of the phrase is one. -/
theorem exists_openWith {mnemonic walletPath : Str} (draw : OpenDraw) {disk : Disk}
    {keypair : KeyPair lib.curve} (hshort : lib.build = .openssl → mnemonic.length < 2 ^ 31)
    (hwritable : disk.writable (disk.locate walletPath) = true)
    (hkey : deriveKeyFromPath lib.hmacSHA512 lib.curve (masterOf lib draw.seed mnemonic)
      defaultPath = .ok keypair) (password : Str) :
    ∃ w disk', openWith lib mnemonic draw walletPath password disk = .ok (w, disk') ∧
      w.mnemonic = mnemonic ∧
      w.accounts = [⟨str "Default", addressOf keypair.pub, keypair, defaultPath⟩] := by
  have hadd : (start lib walletPath mnemonic draw).addAccount lib (str "Default") defaultPath = _ :=
    addAccount_eq_ok.mpr ⟨keypair, hkey, rfl⟩
  obtain ⟨encrypted, -, hsave⟩ := exists_save (w := { start lib walletPath mnemonic draw with
    accounts := [⟨str "Default", addressOf keypair.pub, keypair, defaultPath⟩] }) hshort hwritable
    draw.save password
  exact ⟨_, _, openWith_eq_ok.mpr ⟨hadd, hsave⟩, rfl, rfl⟩

/-! ### A sample wallet -/

/-- The entropy of the sample phrase. -/
def sampleEntropy : FixedBytes 16 :=
  ⟨[4, 96, 72, 12, 0, 144, 74, 4, 1, 16, 17, 3, 128, 0, 0, 129], rfl⟩

/-- HMAC-SHA512 of the sample seed under the key of `initializeFromSeed`. -/
def sampleMaster : FixedBytes 64 :=
  ⟨[143, 32, 146, 23, 97, 99, 183, 93, 210, 117, 224, 171, 101, 89, 8, 67, 113, 164, 238, 219, 115,
    50, 76, 221, 195, 9, 22, 132, 156, 91, 196, 147, 208, 5, 192, 25, 133, 217, 90, 210, 225, 164,
    51, 58, 159, 44, 107, 42, 148, 175, 228, 11, 216, 93, 40, 162, 86, 176, 167, 128, 200, 75, 91,
    2], rfl⟩

/-- The digests from which the children of it are taken, one below the other, on the default
path. -/
def sampleNodes : List (UInt32 × FixedBytes 64) :=
  [(0x8000002C,
      ⟨[16, 167, 76, 122, 228, 124, 168, 133, 161, 80, 31, 42, 113, 85, 14, 141, 161, 81, 144, 175,
        248, 13, 45, 216, 77, 116, 231, 147, 105, 239, 43, 92, 207, 22, 233, 212, 220, 36, 139, 68,
        208, 0, 193, 52, 157, 20, 213, 1, 25, 37, 10, 214, 0, 184, 243, 252, 143, 209, 240, 95, 138,
        141, 23, 243], rfl⟩),
    (0x8000003C,
      ⟨[80, 55, 215, 125, 243, 31, 190, 146, 1, 87, 75, 0, 242, 36, 193, 62, 120, 106, 240, 213,
        253, 196, 231, 25, 17, 183, 226, 68, 10, 111, 13, 23, 170, 120, 74, 124, 175, 23, 150, 73,
        44, 127, 166, 150, 23, 54, 69, 68, 227, 185, 225, 66, 116, 201, 204, 83, 24, 232, 73, 51,
        54, 230, 114, 146], rfl⟩),
    (0x80000000,
      ⟨[126, 57, 160, 182, 21, 169, 184, 27, 119, 0, 16, 42, 187, 28, 139, 142, 33, 212, 14, 72,
        187, 158, 114, 167, 241, 20, 133, 213, 60, 70, 7, 146, 45, 13, 100, 16, 90, 104, 194, 12,
        134, 217, 235, 164, 248, 143, 56, 196, 223, 228, 62, 165, 214, 55, 199, 98, 101, 51, 198,
        142, 90, 83, 167, 92], rfl⟩),
    (0,
      ⟨[16, 80, 207, 224, 1, 115, 78, 144, 200, 110, 135, 187, 74, 1, 8, 238, 99, 167, 172, 207, 76,
        252, 208, 157, 97, 68, 43, 17, 34, 136, 171, 202, 40, 31, 98, 127, 46, 245, 62, 133, 230, 6,
        49, 48, 151, 55, 37, 118, 47, 235, 213, 66, 161, 2, 187, 173, 180, 51, 145, 158, 93, 125,
        65, 166], rfl⟩),
    (0,
      ⟨[169, 71, 167, 157, 216, 35, 122, 88, 253, 161, 229, 102, 88, 251, 124, 214, 169, 168, 4, 72,
        220, 93, 244, 196, 167, 159, 97, 111, 212, 156, 189, 235, 163, 76, 28, 243, 47, 123, 237,
        104, 82, 211, 152, 147, 124, 135, 31, 69, 184, 31, 78, 72, 166, 99, 109, 234, 157, 98, 183,
        85, 99, 131, 160, 59], rfl⟩)]

/-- A digest is found at its index below its parent. -/
def sampleHmac (parent : FixedBytes 64) (key data : Bytes) :
    List (UInt32 × FixedBytes 64) → FixedBytes 64
  | [] => ⟨List.replicate 64 0, rfl⟩
  | (index, digest) :: nodes =>
    if key = (halves parent).2.val ∧ data = childData (halves parent).1 index then digest
    else sampleHmac digest key data nodes

def samplePriv : Bytes32 :=
  ⟨[169, 71, 167, 157, 216, 35, 122, 88, 253, 161, 229, 102, 88, 251, 124, 214, 169, 168, 4, 72,
    220, 93, 244, 196, 167, 159, 97, 111, 212, 156, 189, 235], rfl⟩

/-- The point of the sample key on the curve. -/
def samplePub : FixedBytes 64 :=
  ⟨[239, 115, 159, 116, 253, 11, 197, 5, 34, 255, 44, 52, 240, 170, 239, 175, 113, 166, 222, 210,
    96, 20, 195, 239, 153, 87, 138, 115, 87, 168, 117, 62, 75, 112, 198, 247, 128, 244, 103, 95, 56,
    231, 244, 222, 203, 216, 174, 162, 212, 183, 23, 140, 63, 139, 197, 129, 55, 82, 188, 41, 247,
    232, 160, 7], rfl⟩

/-- The values of the real functions for the sample, and something else everywhere else. The hash is
needed of the entropy, and of all but its last byte. -/
def sampleLibraries : Libraries where
  build := .openssl
  crypto := sampleLibrary
  sha256 data :=
    if data = sampleEntropy.val then
      ⟨[241, 183, 211, 26, 140, 64, 249, 59, 193, 49, 241, 93, 167, 22, 209, 103, 112, 1, 52, 70,
        46, 45, 251, 150, 188, 208, 52, 60, 142, 227, 172, 190], rfl⟩
    else if data = sampleEntropy.val.take 15 then
      ⟨[136, 230, 238, 40, 21, 61, 23, 196, 235, 4, 180, 132, 131, 63, 158, 87, 166, 22, 96, 211,
        134, 128, 84, 63, 34, 2, 234, 63, 142, 248, 201, 83], rfl⟩
    else zeroKey
  hmacSHA512 key data :=
    if key = str "Bitcoin seed" ∧ data = sampleSeed.val then sampleMaster
    else sampleHmac sampleMaster key data sampleNodes
  curve :=
    { seckeyVerify := fun sk => sk = samplePriv
      pubkeyCreate := fun sk => if sk = samplePriv then some samplePub else none
      signRecoverable := fun _ _ => none
      parseCompact := fun _ _ => none
      recover := fun _ _ => none }

/-- What the buffers hold that nobody has written to. -/
def staleBuffer : FixedBytes 64 := ⟨List.replicate 64 0xCC, rfl⟩

/-- All that is written gets to the file. -/
def sampleSave : SaveDraw := ⟨sampleIv, staleBuffer, none⟩

def sampleDraw : OpenDraw := ⟨sampleSaltBytes, staleBuffer, sampleSave⟩

/-- No files, and two that can be written. Both `w` and `./w` lead to the first. -/
def emptyDisk : Disk :=
  ⟨fun path => if path = str "w" ∨ path = str "./w" then 0 else 1, fun _ => true, fun _ => none⟩

theorem parse_defaultPath :
    parseBIP32Path defaultPath = .ok [0x8000002C, 0x8000003C, 0x80000000, 0, 0] := by
  decide +kernel

theorem generateMnemonic_sample :
    generateMnemonic sampleLibraries.sha256 sampleEntropy = samplePhrase := by
  decide +kernel

theorem masterOf_sample (buffer : FixedBytes 64) :
    masterOf sampleLibraries buffer samplePhrase = halves sampleMaster := by
  have hsalt : (str "TREZOR" ++ []).length < 2 ^ 31 := by decide
  have hderived : sampleLibrary.pbkdf2 samplePhrase (str "TREZOR" ++ []) 2048 = sampleSeed := by
    decide +kernel
  have hseed : mnemonicToSeed sampleLibraries buffer samplePhrase [] = sampleSeed := by
    simp only [mnemonicToSeed, sampleLibraries, pbkdf2SHA512,
      passwordInput_of_lt length_samplePhrase, castInput_of_lt hsalt, hderived]
  rw [masterOf, hseed]
  rfl

/-- The key of the first account. -/
theorem deriveKeyFromPath_sample :
    ∃ keypair : KeyPair sampleLibraries.curve, keypair.pub = samplePub ∧
      deriveKeyFromPath sampleLibraries.hmacSHA512 sampleLibraries.curve (halves sampleMaster)
        defaultPath = .ok keypair := by
  have hpriv : (derivePath sampleLibraries.hmacSHA512 (halves sampleMaster)
      [0x8000002C, 0x8000003C, 0x80000000, 0, 0]).1 = samplePriv := by
    decide +kernel
  have hverify : sampleLibraries.curve.seckeyVerify samplePriv = true := by
    simp [sampleLibraries]
  have hpub : sampleLibraries.curve.pubkeyCreate samplePriv = some samplePub := by
    simp [sampleLibraries]
  refine ⟨⟨samplePriv, samplePub, .inr hpub⟩, rfl, ?_⟩
  rw [deriveKeyFromPath, parse_defaultPath]
  simp only [bind, Except.bind, hpriv]
  exact KeyPair.fromPrivateKey_of_valid hverify hpub

/-- The sample wallet is created, whatever gets to its file. -/
theorem exists_create_sample (written : Option ℕ) (walletPath : Str) : ∃ w disk keypair,
    create sampleLibraries sampleEntropy
      { sampleDraw with save := { sampleSave with written } } walletPath samplePassword emptyDisk =
        .ok (w, disk) ∧
    w.mnemonic = samplePhrase ∧ keypair.pub = samplePub ∧
    w.accounts = [⟨str "Default", addressOf samplePub, keypair, defaultPath⟩] := by
  obtain ⟨keypair, hpub, hkey⟩ := deriveKeyFromPath_sample
  rw [← masterOf_sample staleBuffer] at hkey
  have hwritable : emptyDisk.writable (emptyDisk.locate walletPath) = true := rfl
  obtain ⟨w, disk, hopen, hmnemonic, haccounts⟩ :=
    exists_openWith { sampleDraw with save := { sampleSave with written } }
      (fun _ => length_samplePhrase) hwritable hkey samplePassword
  refine ⟨w, disk, keypair, ?_, hmnemonic, hpub, by rw [haccounts, hpub]⟩
  rw [create, generateMnemonic_sample, hopen]

/-! ### Exported keys -/

/-- In every session of a wallet, a private key that is exported for an address is a key of that
address, on a path from the phrase that the wallet was opened with. With OpenSSL the length of the
phrase has to fit an `int`. -/
theorem exported_keys_own_addresses {draw : OpenDraw} {password : Str} {disk : Disk}
    (hopen : Opened lib draw password w disk)
    (hshort : lib.build = .openssl → w.mnemonic.length < 2 ^ 31) (calls : List WalletCall) :
    ∀ addr text,
      .privateKey addr (.ok text) ∈ ((walletMachine lib).run (w, disk) calls).2 →
      KeyOf lib w.mnemonic addr text := by
  let Inv (s : Wallet lib.curve × Disk) : Prop := s.1.Derived ∧ s.1.mnemonic = w.mnemonic
  let Good (answer : WalletAnswer lib.curve) : Prop :=
    ∀ addr text, answer = .privateKey addr (.ok text) → KeyOf lib w.mnemonic addr text
  have hstep : ∀ s c, Inv s → True → Inv ((walletMachine lib).step s c).1 ∧
      ∀ e ∈ ((walletMachine lib).step s c).2, Good e := by
    rintro ⟨w₁, disk₁⟩ c ⟨hderived, hmnemonic⟩ -
    obtain ⟨hnext, hsame⟩ := hderived.call disk₁ c
    refine ⟨⟨hnext, hsame.trans hmnemonic⟩, ?_⟩
    rintro e he addr text rfl
    obtain ⟨password', hexport⟩ := exists_exportPrivateKey he
    rw [← hmnemonic] at hshort ⊢
    exact hderived.exportPrivateKey hshort hexport
  have hguard : (walletMachine lib).Guarded (fun _ _ => True) (w, disk) calls :=
    Machine.guarded_of_forall _ (fun _ _ => trivial) _ _
  have hrun := Machine.run_invariant Inv Good hstep ⟨hopen.derived, rfl⟩ hguard
  intro addr text hmem
  exact hrun.2 _ hmem addr text rfl

/-- The key of the first account, exported right after the wallet is created. -/
theorem exported_keys_own_addresses_sample : ∃ w disk text,
    create sampleLibraries sampleEntropy sampleDraw (str "w") samplePassword emptyDisk =
      .ok (w, disk) ∧
    .privateKey (addressOf samplePub) (.ok text) ∈ ((walletMachine sampleLibraries).run (w, disk)
      [.exportPrivateKey (addressOf samplePub) []]).2 ∧
    KeyOf sampleLibraries samplePhrase (addressOf samplePub) text := by
  obtain ⟨w, disk, keypair, hcreate, hmnemonic, -, haccounts⟩ := exists_create_sample none (str "w")
  have hexport : w.exportPrivateKey (addressOf samplePub) [] = .ok (toHex keypair.priv.val) := by
    simp [Wallet.exportPrivateKey, getAccount, haccounts]
  have hmem : .privateKey (addressOf samplePub) (.ok (toHex keypair.priv.val)) ∈
      ((walletMachine sampleLibraries).run (w, disk)
        [.exportPrivateKey (addressOf samplePub) []]).2 := by
    rw [← hexport]
    exact List.mem_singleton_self _
  have hkey := exported_keys_own_addresses (.created hcreate)
    (fun _ => by rw [hmnemonic]; exact length_samplePhrase) _ _ _ hmem
  rw [hmnemonic] at hkey
  exact ⟨w, disk, _, hcreate, hmem, hkey⟩

/-! ### Restoring a wallet -/

/-- Two wallets that differ in their files and salts only. -/
structure Same (w w' : Wallet lib.curve) : Prop where
  mnemonic : w.mnemonic = w'.mnemonic
  master : w.master = w'.master
  accounts : w.accounts = w'.accounts

/-- They accept the same accounts. -/
theorem Same.addAccount (h : w.Same w') (name path : Str) :
    (∃ w₁ w₁', w.addAccount lib name path = .ok w₁ ∧ w'.addAccount lib name path = .ok w₁' ∧
      w₁.Same w₁') ∨
    ∃ e, w.addAccount lib name path = .error e ∧ w'.addAccount lib name path = .error e := by
  cases hkey : deriveKeyFromPath lib.hmacSHA512 lib.curve w.master path with
  | ok keypair =>
    have hkey' : deriveKeyFromPath lib.hmacSHA512 lib.curve w'.master path = .ok keypair := by
      rw [← h.master, hkey]
    refine .inl ⟨_, _, addAccount_eq_ok.mpr ⟨keypair, hkey, rfl⟩,
      addAccount_eq_ok.mpr ⟨keypair, hkey', rfl⟩, h.mnemonic, h.master, ?_⟩
    rw [h.accounts]
  | error e =>
    refine .inr ⟨e, ?_, ?_⟩
    · rw [Wallet.addAccount, hkey]
      rfl
    · rw [Wallet.addAccount, ← h.master, hkey]
      rfl

/-- A call that adds an account keeps them alike, and is answered alike. -/
theorem Same.call_addAccount (h : w.Same w') (disk disk' : Disk) (name path : Str) :
    (call lib (w, disk) (.addAccount name path)).1.1.Same
        (call lib (w', disk') (.addAccount name path)).1.1 ∧
      (call lib (w, disk) (.addAccount name path)).2 =
        (call lib (w', disk') (.addAccount name path)).2 := by
  rcases h.addAccount name path with ⟨w₁, w₁', hadd, hadd', hsame⟩ | ⟨e, hadd, hadd'⟩
  · simpa [Wallet.call, hadd, hadd'] using hsame
  · simpa [Wallet.call, hadd, hadd'] using h

/-- The other calls do not touch the wallet. -/
theorem call_of_not_addsAccount (s : Wallet lib.curve × Disk) {c : WalletCall}
    (h : c.addsAccount = false) : (call lib s c).1.1 = s.1 := by
  cases callCase s c with
  | quiet hnext => rw [hnext]
  | added hc _ _ =>
    subst hc
    cases h
  | saved _ _ hnext => rw [hnext]

/-- A session in which only the accounts of another are added leads to the same wallet. -/
theorem Same.run (h : w.Same w') (disk disk' : Disk) (calls : List WalletCall) :
    ((walletMachine lib).run (w, disk) calls).1.1.Same
      ((walletMachine lib).run (w', disk') (calls.filter WalletCall.addsAccount)).1.1 := by
  -- The second session stands still wherever the first adds no account.
  induction calls generalizing w w' disk disk' with
  | nil => exact h
  | cons c calls ih =>
    cases hadds : c.addsAccount with
    | false =>
      have hsame : (call lib (w, disk) c).1.1.Same w' := by
        rwa [call_of_not_addsAccount (w, disk) hadds]
      rw [List.filter_cons_of_neg (by simp [hadds]), Machine.run_cons]
      exact ih hsame _ _
    | true =>
      obtain ⟨name, path, rfl⟩ : ∃ name path, c = .addAccount name path := by
        cases c with
        | addAccount name path => exact ⟨name, path, rfl⟩
        | _ => cases hadds
      rw [List.filter_cons_of_pos hadds, Machine.run_cons, Machine.run_cons]
      exact ih (h.call_addAccount disk disk' name path).1 _ _

/-- Two wallets with their files: the same, and both can be saved. -/
structure Alike (s t : Wallet lib.curve × Disk) : Prop where
  same : s.1.Same t.1
  short : lib.build = .openssl → s.1.mnemonic.length < 2 ^ 31
  writable : s.2.writable (s.2.locate s.1.walletPath) = true
  writable' : t.2.writable (t.2.locate t.1.walletPath) = true

/-- They answer every call alike, and stay alike. -/
theorem alike_call {s t : Wallet lib.curve × Disk} (h : Alike s t) (c : WalletCall) :
    Alike (call lib s c).1 (call lib t c).1 ∧ (call lib s c).2 = (call lib t c).2 := by
  obtain ⟨hsame, hshort, hwritable, hwritable'⟩ := h
  obtain ⟨hnext, hanswers⟩ : (call lib s c).1.1.Same (call lib t c).1.1 ∧
      (call lib s c).2 = (call lib t c).2 := by
    cases c with
    | addAccount name path => exact hsame.call_addAccount s.2 t.2 name path
    | save draw password =>
      -- Neither can fail: the phrase is short enough to be encrypted, and both files can be opened.
      have hshort' := hshort
      rw [hsame.mnemonic] at hshort'
      obtain ⟨_, -, hsave⟩ := exists_save hshort hwritable draw password
      obtain ⟨_, -, hsave'⟩ := exists_save hshort' hwritable' draw password
      simpa [Wallet.call, hsave, hsave'] using hsame
    | getAccount addr => exact ⟨hsame, by simp [Wallet.call, getAccount, hsame.accounts]⟩
    | getAccountNamed name => exact ⟨hsame, by simp [Wallet.call, getAccountNamed, hsame.accounts]⟩
    | listAccounts => exact ⟨hsame, by simp [Wallet.call, hsame.accounts]⟩
    | exportPrivateKey addr password =>
      exact ⟨hsame, by simp [Wallet.call, Wallet.exportPrivateKey, getAccount, hsame.accounts]⟩
    | exportMnemonic password =>
      exact ⟨hsame, by simp [Wallet.call, exportMnemonic, hsame.mnemonic]⟩
  have hfixed := fixed_call s c
  exact ⟨⟨hnext, by rwa [hfixed.mnemonic], hfixed.saves hwritable,
    (fixed_call t c).saves hwritable'⟩, hanswers⟩

/-- The phrase of a wallet opens one that differs in its files and salt only. -/
theorem Opened.exists_same {draw : OpenDraw} {password : Str} {disk : Disk}
    (h : Opened lib draw password w disk)
    (hshort : lib.build = .openssl → w.mnemonic.length < 2 ^ 31) (draw₁ : OpenDraw)
    {walletPath : Str} (password₁ : Str) {disk₁ : Disk}
    (hwritable : disk₁.writable (disk₁.locate walletPath) = true) :
    ∃ w₁ disk₁', openWith lib w.mnemonic draw₁ walletPath password₁ disk₁ = .ok (w₁, disk₁') ∧
      w.Same w₁ := by
  obtain ⟨walletPath₀, -, hadd, -⟩ := h.exists_start
  -- Only the path, the salt and the stale buffers differ, and the seed overwrites the buffers.
  have hstart : (start lib walletPath₀ w.mnemonic draw).Same
      (start lib walletPath w.mnemonic draw₁) := ⟨rfl, masterOf_congr hshort _ _, rfl⟩
  rcases hstart.addAccount (str "Default") defaultPath with
    ⟨w₀, w₁, hadd₀, hadd₁, hsame⟩ | ⟨e, he, -⟩
  · obtain rfl : w₀ = w := Except.ok.inj (hadd₀.symm.trans hadd)
    have hpath : w₁.walletPath = walletPath := by
      obtain ⟨keypair, -, rfl⟩ := addAccount_eq_ok.mp hadd₁
      rfl
    rw [hsame.mnemonic] at hshort
    rw [← hpath] at hwritable
    obtain ⟨encrypted, -, hsave⟩ := exists_save hshort hwritable draw₁.save password₁
    exact ⟨w₁, _, openWith_eq_ok.mpr ⟨hadd₁, hsave⟩, hsame⟩
  · rw [he] at hadd
    cases hadd

/-- A wallet can be restored from its phrase at any time: imported elsewhere, and with the accounts
added that were added before, it answers every call as it would have. That is so exactly when the
phrase validates. Nothing else is asked of a place that can be written to; with OpenSSL the length
of the phrase has to fit an `int`. -/
theorem restored_iff {draw : OpenDraw} {password : Str} {disk : Disk}
    (hopen : Opened lib draw password w disk)
    (hshort : lib.build = .openssl → w.mnemonic.length < 2 ^ 31) (before : List WalletCall)
    (draw₁ : OpenDraw) (walletPath password₁ : Str) {disk₁ : Disk}
    (hwritable : disk₁.writable (disk₁.locate walletPath) = true) :
    let s := ((walletMachine lib).run (w, disk) before).1
    (∃ s₁, importMnemonic lib (s.1.exportMnemonic password₁) draw₁ walletPath password₁ disk₁ =
        .ok s₁ ∧
      let s₁' := ((walletMachine lib).run s₁ (before.filter WalletCall.addsAccount)).1
      ∀ calls, ((walletMachine lib).run s₁' calls).2 = ((walletMachine lib).run s calls).2) ↔
      validateMnemonic lib.sha256 w.mnemonic = true := by
  intro s
  have hfixed : Fixed (w, disk) s := fixed_run (w, disk) before
  have hmnemonic : s.1.mnemonic = w.mnemonic := hfixed.mnemonic
  unfold importMnemonic exportMnemonic
  rw [hmnemonic]
  cases hvalid : validateMnemonic lib.sha256 w.mnemonic with
  -- A phrase can be drawn that does not validate, and `importMnemonic` then throws.
  | false => simp [runtimeError]
  | true =>
    obtain ⟨w₁, disk₁', hopen₁, hsame⟩ := hopen.exists_same hshort draw₁ password₁ hwritable
    obtain ⟨_, _, -, hsave⟩ := hopen.exists_start
    obtain ⟨-, hsave₁⟩ := openWith_eq_ok.mp hopen₁
    refine iff_of_true ⟨(w₁, disk₁'), hopen₁, fun calls => ?_⟩ rfl
    have hfixed₁ := fixed_run (w₁, disk₁') (before.filter WalletCall.addsAccount)
    have halike : Alike s ((walletMachine lib).run (w₁, disk₁')
        (before.filter WalletCall.addsAccount)).1 :=
      ⟨hsame.run disk disk₁' before, by rwa [hmnemonic], hfixed.saves (writable_of_save hsave),
        hfixed₁.saves (writable_of_save hsave₁)⟩
    exact (Machine.run_related Alike (fun _ _ c h => alike_call h c) halike calls).symm

/-- The sample wallet gets a second account and is saved again; its phrase validates, and restores
it elsewhere. -/
theorem restored_iff_sample : ∃ w disk s₁,
    create sampleLibraries sampleEntropy sampleDraw (str "w") samplePassword emptyDisk =
      .ok (w, disk) ∧
    let s := ((walletMachine sampleLibraries).run (w, disk)
      [.addAccount (str "default") defaultPath, .save sampleSave samplePassword]).1
    importMnemonic sampleLibraries (s.1.exportMnemonic []) sampleDraw (str "v") [] emptyDisk =
      .ok s₁ ∧
    let s₁' := ((walletMachine sampleLibraries).run s₁
      [.addAccount (str "default") defaultPath]).1
    ∀ calls, ((walletMachine sampleLibraries).run s₁' calls).2 =
      ((walletMachine sampleLibraries).run s calls).2 := by
  obtain ⟨w, disk, keypair, hcreate, hmnemonic, -, -⟩ := exists_create_sample none (str "w")
  have hvalid : validateMnemonic sampleLibraries.sha256 w.mnemonic = true := by
    rw [hmnemonic]
    decide +kernel
  have hwritable : emptyDisk.writable (emptyDisk.locate (str "v")) = true := rfl
  obtain ⟨s₁, himport, hcalls⟩ := (restored_iff (.created hcreate)
    (fun _ => by rw [hmnemonic]; exact length_samplePhrase)
    [.addAccount (str "default") defaultPath, .save sampleSave samplePassword] sampleDraw (str "v")
    [] hwritable).mpr hvalid
  exact ⟨w, disk, s₁, hcreate, himport, hcalls⟩

end Wallet

end Gambit
