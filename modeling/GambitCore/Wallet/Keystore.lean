import GambitCore.Codec.Separated
import GambitCore.Wallet.Session

/-!
# The keystore

The file of a wallet. `load` does not read it, so that a wallet lives on in what can be read off its
file: the salt and the encrypted phrase stand there between quotation marks, which neither of them
contains, and with the password of the last `save` they give the phrase. No call of a session can
change that, and no other file is touched. What `save` does not notice are writes that do not get to
the file, and a password from which OpenSSL has derived no key; both are conditions here.

`walletCLI` is the only user of the wallet. Each time the program is run with `--wallet` it reads
one command. `create` writes the file twice, the second time with the same account under two names,
and replaces whatever is there; `load` always ends in an exception. So over any number of runs a
file is as it was, or holds the phrase that the last successful `create` has drawn. A file is a
place on the disk: a `create` under another path that leads there replaces it too.

## Main definitions

* `Wallet.Keystore` — a text with the given salt and encrypted phrase
* `Wallet.Recovers` — what a text gives under a password
* `Wallet.Stored` — the file of a wallet gives its phrase
* `Invocation`, `walletCLI`, `consoleMachine` — runs of the program with `--wallet`

## Main results

* `Wallet.Keystore.unique` — salt and encrypted phrase can be read off the text
* `Wallet.Stored.call` — a call leaves the phrase in the file
* `phrase_recoverable` — in every session the file gives the phrase
* `console_keystores` — the files after any number of runs of the program
-/

namespace Gambit

namespace Wallet

/-! ### The text of a keystore -/

/-- The text has the given salt and encrypted phrase in the fields that `save` writes first. -/
structure Keystore (text salt encrypted : Str) : Prop where
  text_eq : ∃ rest, text = str "\x7b\n  \"version\": 1,\n  \"salt\": \"" ++
    (salt ++ 34 :: (str ",\n  \"mnemonic\": \"" ++ (encrypted ++ 34 :: rest)))
  salt_free : 34 ∉ salt
  encrypted_free : 34 ∉ encrypted

/-- Each of the two ends at the next quotation mark. -/
theorem Keystore.unique {text salt salt' encrypted encrypted' : Str}
    (h : Keystore text salt encrypted) (h' : Keystore text salt' encrypted') :
    salt' = salt ∧ encrypted' = encrypted := by
  obtain ⟨⟨rest, htext⟩, hsalt, hencrypted⟩ := h
  obtain ⟨⟨rest', htext'⟩, hsalt', hencrypted'⟩ := h'
  have hfields := List.append_cancel_left (htext.symm.trans htext')
  obtain ⟨hsame, hphrase⟩ := Codec.append_cons_inj_left hsalt hsalt' hfields
  have hbehind := List.append_cancel_left hphrase
  obtain ⟨hsame', -⟩ := Codec.append_cons_inj_left hencrypted hencrypted' hbehind
  exact ⟨hsame.symm, hsame'.symm⟩

variable {lib : Libraries} {w w' : Wallet lib.curve}

theorem keystore_keystoreText {encrypted : Str} (hsalt : 34 ∉ w.salt)
    (hencrypted : 34 ∉ encrypted) : Keystore (w.keystoreText lib encrypted) w.salt encrypted :=
  ⟨⟨_, by simp [keystoreText, str]; rfl⟩, hsalt, hencrypted⟩

theorem quote_notMem_base64Encode (data : Bytes) : 34 ∉ base64Encode data := by
  obtain ⟨xs, -, n, hlt, -, htext, -⟩ := base64Encode_eq data
  rw [htext, List.mem_append]
  rintro (hchar | hfill)
  · obtain ⟨x, hx, heq⟩ := List.mem_map.mp hchar
    have hindex := base64Index_base64Char (hlt x hx)
    have hnone : base64Index 34 = none := by decide +kernel
    rw [heq, hnone] at hindex
    cases hindex
  · exact absurd (List.eq_of_mem_replicate hfill) (by decide)

theorem quote_notMem_toHex (bs : Bytes) : 34 ∉ toHex bs := fun h =>
  absurd (isDigit_of_mem_toHex h) (by decide)

/-- What is encrypted is base64 text. -/
theorem quote_notMem_encrypted {L : CryptoLibrary} {build : Build} {salt plaintext password : Str}
    {iv : FixedBytes 12} {key : FixedBytes 64} {encrypted : Str}
    (h : encryptAES256GCM L build salt iv key plaintext password = .ok encrypted) :
    34 ∉ encrypted := by
  unfold encryptAES256GCM at h
  split at h
  · split at h
    · cases h
    · obtain rfl := Except.ok.inj h
      exact quote_notMem_base64Encode _
  · obtain rfl := Except.ok.inj h
    exact quote_notMem_base64Encode _

/-- Under a password whose length fits an `int`, what was encrypted is decrypted again, whatever the
buffers have held. -/
theorem decrypt_encrypted {L : CryptoLibrary} (hL : L.Sound) {build : Build}
    {salt plaintext password : Str} (hsalt : salt.length < 2 ^ 31)
    (hshort : build = .openssl → plaintext.length < 2 ^ 31)
    (hpassword : build = .openssl → password.length < 2 ^ 31) {iv : FixedBytes 12}
    {key : FixedBytes 64} {encrypted : Str}
    (h : encryptAES256GCM L build salt iv key plaintext password = .ok encrypted)
    (buffer : FixedBytes 64) :
    decryptAES256GCM L build salt buffer encrypted password = .ok plaintext := by
  have hround : roundTrip L build salt iv (key, buffer) plaintext password = .ok plaintext := by
    cases build with
    | fallback => exact roundTrip_fallback iv plaintext _
    | openssl =>
      have hread : (passwordInput password).isSome := by
        rw [passwordInput_of_lt (hpassword rfl)]
        rfl
      rw [roundTrip_openssl iv plaintext hL hsalt hread, castInput_of_lt (hshort rfl)]
  obtain ⟨encrypted', hencrypt, hdecrypt⟩ := bind_eq_ok.mp hround
  obtain rfl := Except.ok.inj (h.symm.trans hencrypt)
  exact hdecrypt

/-- The text is a keystore, and under the password it gives the phrase. -/
def Recovers (lib : Libraries) (text password phrase : Str) : Prop :=
  ∃ salt encrypted,
    (∀ salt' encrypted', Keystore text salt' encrypted' ↔ salt' = salt ∧ encrypted' = encrypted) ∧
    ∀ buffer, decryptAES256GCM lib.crypto lib.build salt buffer encrypted password = .ok phrase

theorem Keystore.recovers {text salt encrypted password phrase : Str}
    (h : Keystore text salt encrypted)
    (hdecrypt : ∀ buffer,
      decryptAES256GCM lib.crypto lib.build salt buffer encrypted password = .ok phrase) :
    Recovers lib text password phrase := by
  refine ⟨salt, encrypted, fun salt' encrypted' => ⟨h.unique, ?_⟩, hdecrypt⟩
  rintro ⟨rfl, rfl⟩
  exact h

/-! ### The file in a session -/

/-- The text gives the phrase, if the password is one that can be read. -/
def Holds (lib : Libraries) (text password phrase : Str) : Prop :=
  (lib.build = .openssl → password.length < 2 ^ 31) → Recovers lib text password phrase

/-- The file of the wallet is what has got there of a text that gives its phrase, under the password
of the last `save`. It can be written again. -/
structure Stored (last : SaveDraw × Str) (w : Wallet lib.curve) (disk : Disk) : Prop where
  writable : disk.writable (disk.locate w.walletPath) = true
  salt_free : 34 ∉ w.salt
  salt_short : w.salt.length < 2 ^ 31
  file : ∃ text, disk.files (disk.locate w.walletPath) = some (last.1.kept text) ∧
    Holds lib text last.2 w.mnemonic

/-- What `save` does, where it can write. -/
theorem exists_save_stored (hL : lib.crypto.Sound)
    (hshort : lib.build = .openssl → w.mnemonic.length < 2 ^ 31) (hsalt : 34 ∉ w.salt)
    (hlen : w.salt.length < 2 ^ 31) {disk : Disk}
    (hwritable : disk.writable (disk.locate w.walletPath) = true) (draw : SaveDraw)
    (password : Str) :
    ∃ text, w.save lib draw password disk = .ok (disk.write w.walletPath (draw.kept text)) ∧
      Holds lib text password w.mnemonic := by
  obtain ⟨encrypted, hencrypt, hsave⟩ := exists_save hshort hwritable draw password
  refine ⟨_, hsave, fun hpassword => ?_⟩
  exact (keystore_keystoreText hsalt (quote_notMem_encrypted hencrypt)).recovers
    (decrypt_encrypted hL hlen hshort hpassword hencrypt)

theorem files_write (disk : Disk) (path text : Str) :
    (disk.write path text).files (disk.locate path) = some text := Function.update_self _ _ _

theorem files_write_of_ne (disk : Disk) {path : Str} (text : Str) {place : ℕ}
    (h : place ≠ disk.locate path) : (disk.write path text).files place = disk.files place :=
  Function.update_of_ne h _ _

/-- The second of two texts remains. -/
theorem write_write (disk : Disk) (path text text' : Str) :
    (disk.write path text).write path text' = disk.write path text' := by
  simp only [Disk.write, Function.update_idem]

/-- The last call of `save`, with its password. -/
def lastSave (last : SaveDraw × Str) : WalletCall → SaveDraw × Str
  | .save draw password => (draw, password)
  | _ => last

/-- Where a session can have led: the phrase is still in the file, and no other file is changed. -/
structure Kept (s : Wallet lib.curve × Disk) (last : SaveDraw × Str) (t : Wallet lib.curve × Disk) :
    Prop where
  stored : Stored last t.1 t.2
  fixed : Fixed s t
  others : ∀ place ≠ s.2.locate s.1.walletPath, t.2.files place = s.2.files place

theorem Stored.kept {last : SaveDraw × Str} {disk : Disk} (h : Stored last w disk) :
    Kept (w, disk) last (w, disk) := ⟨h, .refl _, fun _ _ => rfl⟩

/-- A call leaves the phrase in the file, under its own password if it is a `save`. -/
theorem Stored.call (hL : lib.crypto.Sound)
    (hshort : lib.build = .openssl → w.mnemonic.length < 2 ^ 31) {last : SaveDraw × Str}
    {disk : Disk} (h : Stored last w disk) (c : WalletCall) :
    Kept (w, disk) (lastSave last c) (Wallet.call lib (w, disk) c).1 := by
  cases c with
  | addAccount name path =>
    cases hadd : w.addAccount lib name path with
    | ok w₁ =>
      have hcall : (Wallet.call lib (w, disk) (.addAccount name path)).1 = (w₁, disk) := by
        rw [Wallet.call, hadd]
      obtain ⟨keypair, -, rfl⟩ := addAccount_eq_ok.mp hadd
      rw [hcall]
      exact ⟨⟨h.writable, h.salt_free, h.salt_short, h.file⟩, ⟨rfl, rfl, rfl, rfl, rfl⟩,
        fun _ _ => rfl⟩
    | error e =>
      have hcall : (Wallet.call lib (w, disk) (.addAccount name path)).1 = (w, disk) := by
        rw [Wallet.call, hadd]
      rw [hcall]
      exact h.kept
  | save draw password =>
    -- The file is written anew, so that the earlier password no longer counts.
    obtain ⟨text, hsave, hholds⟩ :=
      exists_save_stored hL hshort h.salt_free h.salt_short h.writable draw password
    have hcall : (Wallet.call lib (w, disk) (.save draw password)).1 =
        (w, disk.write w.walletPath (draw.kept text)) := by
      rw [Wallet.call, hsave]
    rw [hcall]
    refine ⟨⟨h.writable, h.salt_free, h.salt_short, text, ?_, hholds⟩, ⟨rfl, rfl, rfl, rfl, rfl⟩,
      fun place hplace => ?_⟩
    · exact files_write disk _ _
    · exact files_write_of_ne disk _ hplace
  | _ => exact h.kept

theorem Stored.run (hL : lib.crypto.Sound)
    (hshort : lib.build = .openssl → w.mnemonic.length < 2 ^ 31) {last : SaveDraw × Str}
    {disk : Disk} (h : Stored last w disk) (calls : List WalletCall) :
    Kept (w, disk) (calls.foldl lastSave last) ((walletMachine lib).run (w, disk) calls).1 := by
  induction calls generalizing w disk last with
  | nil => exact h.kept
  | cons c calls ih =>
    have hnext := h.call hL hshort c
    have hrest := ih (by rwa [hnext.fixed.mnemonic]) hnext.stored
    refine ⟨hrest.stored, hnext.fixed.trans hrest.fixed, fun place hne => ?_⟩
    refine (hrest.others place ?_).trans (hnext.others place hne)
    rwa [hnext.fixed.walletPath, hnext.fixed.locate]

/-- The wallet that is opened is stored. -/
theorem stored_of_start (hL : lib.crypto.Sound) {walletPath password : Str} {draw : OpenDraw}
    {disk disk' : Disk} (hshort : lib.build = .openssl → w.mnemonic.length < 2 ^ 31)
    (hadd : (start lib walletPath w.mnemonic draw).addAccount lib (str "Default") defaultPath =
      .ok w) (hsave : w.save lib draw.save password disk = .ok disk') :
    Stored (draw.save, password) w disk' := by
  have hsalt : w.salt = toHex draw.saltBytes.val := by
    obtain ⟨keypair, -, hw⟩ := addAccount_eq_ok.mp hadd
    rw [hw]
    rfl
  have hfree : 34 ∉ w.salt := by
    rw [hsalt]
    exact quote_notMem_toHex draw.saltBytes.val
  have hlen : w.salt.length < 2 ^ 31 := by
    rw [hsalt, length_toHex, draw.saltBytes.property]
    decide
  obtain ⟨hwritable, -⟩ := exists_of_save hsave
  obtain ⟨text, hsave', hholds⟩ :=
    exists_save_stored hL hshort hfree hlen hwritable draw.save password
  obtain rfl := Except.ok.inj (hsave'.symm.trans hsave)
  exact ⟨hwritable, hfree, hlen, text, files_write disk _ _, hholds⟩

/-- In every session, whatever is called, the file of the wallet is what has got there of a text
that gives the phrase under the password of the last `save`, and all other files are as they were.
With OpenSSL the lengths of the phrase and of that password have to fit an `int`. -/
theorem phrase_recoverable (hL : lib.crypto.Sound) {draw : OpenDraw} {password : Str} {disk : Disk}
    (hopen : Opened lib draw password w disk)
    (hshort : lib.build = .openssl → w.mnemonic.length < 2 ^ 31) (calls : List WalletCall) :
    let files := ((walletMachine lib).run (w, disk) calls).1.2.files
    let last := calls.foldl lastSave (draw.save, password)
    (∃ text, files (disk.locate w.walletPath) = some (last.1.kept text) ∧
      Holds lib text last.2 w.mnemonic) ∧
    ∀ place ≠ disk.locate w.walletPath, files place = disk.files place := by
  intro files last
  obtain ⟨walletPath, disk₀, hadd, hsave⟩ := hopen.exists_start
  have hkept := (stored_of_start hL hshort hadd hsave).run hL hshort calls
  obtain ⟨text, htext, hholds⟩ := hkept.stored.file
  rw [hkept.fixed.walletPath, hkept.fixed.locate] at htext
  rw [hkept.fixed.mnemonic] at hholds
  exact ⟨⟨text, htext, hholds⟩, hkept.others⟩

/-- Only ten bytes get to the file when the sample wallet is created. It gets a second account and
is saved again, which puts the phrase in the file. -/
theorem phrase_recoverable_sample : ∃ w disk text,
    create sampleLibraries sampleEntropy
      { sampleDraw with save := { sampleSave with written := some 10 } } (str "w") samplePassword
        emptyDisk = .ok (w, disk) ∧
    ((walletMachine sampleLibraries).run (w, disk) [.addAccount (str "default") defaultPath,
      .save sampleSave samplePassword]).1.2.files (disk.locate w.walletPath) = some text ∧
    Recovers sampleLibraries text samplePassword samplePhrase := by
  obtain ⟨w, disk, -, hcreate, hmnemonic, -⟩ := exists_create_sample (some 10) (str "w")
  obtain ⟨text, htext, hholds⟩ := (phrase_recoverable sampleLibrary_sound (.created hcreate)
    (fun _ => by rw [hmnemonic]; exact length_samplePhrase)
    [.addAccount (str "default") defaultPath, .save sampleSave samplePassword]).1
  rw [hmnemonic] at hholds
  exact ⟨w, disk, text, hcreate, htext, hholds fun _ => by decide⟩

end Wallet

/-! ### The console -/

open Wallet

/-- A run of the program with `--wallet`: what it draws and meets, and the lines it is given. -/
structure Invocation where
  entropy : FixedBytes 16
  /-- What `create` meets. -/
  draw : OpenDraw
  /-- What the second call of `save` meets. -/
  save : SaveDraw
  input : List Str

namespace Invocation

variable (inv : Invocation)

/-- What `getline` reads, which is nothing at the end of the input. -/
def command : Str := inv.input.getD 0 []

def path : Str := inv.input.getD 1 []

def password : Str := inv.input.getD 2 []

end Invocation

/-- What is printed, and whether an exception ends the program. -/
structure Outcome where
  printed : Str
  result : Result Unit

/-- What `walletCLI` prints first. -/
def walletMenu : Str :=
  str "\n[GAMBIT WALLET]\n" ++
  str "Commands: create, load, add-account, list, export-key, export-mnemonic\n" ++
  str "> "

/-- The branch of `create`. -/
def createCommand (lib : Libraries) (inv : Invocation) (disk : Disk) : Disk × Outcome :=
  let printed := walletMenu ++ str "Wallet file path: " ++ str "Set password: "
  match create lib inv.entropy inv.draw inv.path inv.password disk with
  | .error e => (disk, ⟨printed, .error e⟩)
  | .ok (w, disk) =>
    match w.addAccount lib (str "default") (str "m/44'/60'/0'/0/0") with
    | .error e => (disk, ⟨printed, .error e⟩)
    | .ok w =>
      match w.save lib inv.save inv.password disk with
      | .error e => (disk, ⟨printed, .error e⟩)
      | .ok disk =>
        -- The check mark is three bytes long.
        (disk, ⟨printed ++ [0xE2, 0x9C, 0x93] ++ str " Wallet created and saved\n", .ok ()⟩)

/-- The branch of `load`. -/
def loadCommand (lib : Libraries) (inv : Invocation) (disk : Disk) : Outcome :=
  let printed := walletMenu ++ str "Wallet file path: " ++ str "Password: "
  let loaded : Result (Wallet lib.curve) := load inv.path disk
  match loaded with
  | .error e => ⟨printed, .error e⟩
  | .ok w =>
    ⟨printed ++ str "Accounts:\n" ++ w.accounts.flatMap fun acc =>
      str "  " ++ acc.name ++ str ": " ++ acc.address.toHex true ++ str "\n", .ok ()⟩

/-- `walletCLI`. -/
def walletCLI (lib : Libraries) (inv : Invocation) (disk : Disk) : Disk × Outcome :=
  if inv.command = str "create" then createCommand lib inv disk
  else if inv.command = str "load" then (disk, loadCommand lib inv disk)
  else if inv.command = str "add-account" then (disk, ⟨walletMenu, .ok ()⟩)
  else (disk, ⟨walletMenu ++ str "Unknown command\n", .ok ()⟩)

/-- The files over runs of the program, with what each run was given and how it ended. -/
def consoleMachine (lib : Libraries) : Machine Disk Invocation (Invocation × Outcome) :=
  ⟨fun disk inv => ((walletCLI lib inv disk).1, [(inv, (walletCLI lib inv disk).2)])⟩

/-- A wallet has been created at the place, under a path that leads there. -/
structure CreatedAt (locate : Str → ℕ) (place : ℕ) (run : Invocation × Outcome) : Prop where
  command : run.1.command = str "create"
  locate_eq : locate run.1.path = place
  result : run.2.result = .ok ()

section

variable {lib : Libraries}

theorem length_intercalate_le {ws : List Str} {n : ℕ} (h : ∀ w ∈ ws, w.length ≤ n) :
    ([32].intercalate ws).length ≤ (n + 1) * ws.length := by
  induction ws with
  | nil => simp
  | cons w ws ih =>
    obtain ⟨hw, hws⟩ := List.forall_mem_cons.mp h
    have hle := ih hws
    cases ws with
    | nil => simpa using hw.trans (Nat.le_succ n)
    | cons w' ws =>
      rw [List.intercalate_cons_cons, List.length_append, List.length_append, List.length_singleton,
        List.length_cons, Nat.mul_succ]
      omega

/-- The phrases that are drawn are short. -/
theorem length_generateMnemonic_lt (sha256 : Bytes → Bytes32) (entropy : FixedBytes 16) :
    (generateMnemonic sha256 entropy).length < 2 ^ 31 := by
  -- Evaluates the whole list.
  have hall : ∀ w ∈ bip39Wordlist, w.length ≤ 15 := by decide +kernel
  have hphrase (indices : List ℕ) (hcount : indices.length = 12) :
      ([32].intercalate (indices.filterMap fun i => bip39Wordlist[i]?)).length < 2 ^ 31 := by
    have hword : ∀ w ∈ indices.filterMap (fun i => bip39Wordlist[i]?), w.length ≤ 15 := fun w hw =>
      hall w (mem_bip39Wordlist_of_mem hw)
    have hle := length_intercalate_le hword
    have hwords := List.length_filterMap_le (fun i => bip39Wordlist[i]?) indices
    omega
  exact hphrase _ (Codec.length_groups _ _ _)

/-- Once `create` has returned, nothing fails, and its file is written once more. -/
theorem createCommand_of_ok (hL : lib.crypto.Sound) {inv : Invocation} {disk disk₁ : Disk}
    {w : Wallet lib.curve}
    (hcreate : create lib inv.entropy inv.draw inv.path inv.password disk = .ok (w, disk₁)) :
    ∃ text, (createCommand lib inv disk).1 = disk.write inv.path (inv.save.kept text) ∧
      (createCommand lib inv disk).2.result = .ok () ∧
      Holds lib text inv.password (generateMnemonic lib.sha256 inv.entropy) := by
  obtain ⟨hadd, hsave⟩ := openWith_eq_ok.mp hcreate
  obtain ⟨keypair, hkey, hw⟩ := addAccount_eq_ok.mp hadd
  have hpath : w.walletPath = inv.path := by rw [hw]; rfl
  have hphrase : w.mnemonic = generateMnemonic lib.sha256 inv.entropy := by rw [hw]; rfl
  have hshort (_ : lib.build = .openssl) : w.mnemonic.length < 2 ^ 31 := by
    rw [hphrase]
    exact length_generateMnemonic_lt lib.sha256 inv.entropy
  have hstored := stored_of_start hL hshort (hphrase ▸ hadd) hsave
  -- The second account is derived like the first.
  obtain ⟨w₂, hadd₂, hpath₂, hphrase₂, hsalt₂⟩ : ∃ w₂,
      w.addAccount lib (str "default") (str "m/44'/60'/0'/0/0") = .ok w₂ ∧
        w₂.walletPath = w.walletPath ∧ w₂.mnemonic = w.mnemonic ∧ w₂.salt = w.salt :=
    ⟨_, addAccount_eq_ok.mpr ⟨keypair, by rw [hw]; exact hkey, rfl⟩, rfl, rfl, rfl⟩
  obtain ⟨text, hsave₂, hholds⟩ := exists_save_stored hL (by rwa [hphrase₂])
    (by rw [hsalt₂]; exact hstored.salt_free) (by rw [hsalt₂]; exact hstored.salt_short)
    (by rw [hpath₂]; exact hstored.writable) inv.save inv.password
  obtain ⟨-, text₁, rfl⟩ := exists_of_save hsave
  rw [hphrase₂, hphrase] at hholds
  refine ⟨text, ?_, ?_, hholds⟩
  · simp only [createCommand, hcreate, hadd₂, hsave₂]
    rw [hpath₂, hpath, write_write]
  · simp only [createCommand, hcreate, hadd₂, hsave₂]

/-- `load` has not been implemented. -/
theorem loadCommand_result_ne (inv : Invocation) (disk : Disk) :
    (loadCommand lib inv disk).result ≠ .ok () := by
  unfold loadCommand load
  cases disk.files (disk.locate inv.path) with
  | none => exact fun h => by cases h
  | some text => exact fun h => by cases h

/-- What a run of the program does to the files. -/
theorem walletCLI_cases (hL : lib.crypto.Sound) (inv : Invocation) (disk : Disk) :
    ((walletCLI lib inv disk).1 = disk ∧
      ∀ place, ¬ CreatedAt disk.locate place (inv, (walletCLI lib inv disk).2)) ∨
    ∃ text, (walletCLI lib inv disk).1 = disk.write inv.path (inv.save.kept text) ∧
      CreatedAt disk.locate (disk.locate inv.path) (inv, (walletCLI lib inv disk).2) ∧
      Holds lib text inv.password (generateMnemonic lib.sha256 inv.entropy) := by
  unfold walletCLI
  by_cases hcreate : inv.command = str "create"
  · rw [if_pos hcreate]
    cases hopen : create lib inv.entropy inv.draw inv.path inv.password disk with
    | error e =>
      refine .inl ⟨by rw [createCommand, hopen], fun place h => ?_⟩
      have hresult : (createCommand lib inv disk).2.result = .ok () := h.result
      rw [createCommand, hopen] at hresult
      cases hresult
    | ok opened =>
      obtain ⟨text, hdisk, hresult, hholds⟩ := createCommand_of_ok hL hopen
      exact .inr ⟨text, hdisk, ⟨hcreate, rfl, hresult⟩, hholds⟩
  · rw [if_neg hcreate]
    left
    split
    · exact ⟨rfl, fun place h => hcreate h.command⟩
    split
    · exact ⟨rfl, fun place h => hcreate h.command⟩
    · exact ⟨rfl, fun place h => hcreate h.command⟩

/-- What the runs so far say about a file: it is as it was, if no wallet has been created there, and
otherwise it is what has got there of a text that gives the phrase of the last one. -/
def Latest (lib : Libraries) (before after : Disk) (history : List (Invocation × Outcome))
    (place : ℕ) : Prop :=
  ((∀ run ∈ history, ¬ CreatedAt before.locate place run) ∧
    after.files place = before.files place) ∨
  ∃ earlier run later text, history = earlier ++ run :: later ∧
    CreatedAt before.locate place run ∧ (∀ run' ∈ later, ¬ CreatedAt before.locate place run') ∧
    after.files place = some (run.1.save.kept text) ∧
    Holds lib text run.1.password (generateMnemonic lib.sha256 run.1.entropy)

/-- A run that creates nothing at the place. -/
theorem Latest.snoc {before after after' : Disk} {history : List (Invocation × Outcome)}
    {place : ℕ} (h : Latest lib before after history place) {run : Invocation × Outcome}
    (hnot : ¬ CreatedAt before.locate place run)
    (hfile : after'.files place = after.files place) :
    Latest lib before after' (history ++ [run]) place := by
  rcases h with ⟨hnone, hsame⟩ | ⟨earlier, last, later, text, rfl, hcreated, hlater, htext, hholds⟩
  · refine .inl ⟨List.forall_mem_append.mpr ⟨hnone, ?_⟩, hfile.trans hsame⟩
    exact List.forall_mem_singleton.mpr hnot
  · refine .inr ⟨earlier, last, later ++ [run], text, by simp, hcreated,
      List.forall_mem_append.mpr ⟨hlater, ?_⟩, hfile.trans htext, hholds⟩
    exact List.forall_mem_singleton.mpr hnot

/-- A run of the program changes no path. -/
theorem locate_walletCLI (hL : lib.crypto.Sound) (inv : Invocation) (disk : Disk) :
    (walletCLI lib inv disk).1.locate = disk.locate := by
  rcases walletCLI_cases hL inv disk with ⟨hdisk, -⟩ | ⟨text, hdisk, -, -⟩
  · rw [hdisk]
  · rw [hdisk]
    rfl

theorem Latest.step (hL : lib.crypto.Sound) {before disk : Disk}
    (hlocate : disk.locate = before.locate) {history : List (Invocation × Outcome)} {place : ℕ}
    (h : Latest lib before disk history place) (inv : Invocation) :
    Latest lib before (walletCLI lib inv disk).1 (history ++ [(inv, (walletCLI lib inv disk).2)])
      place := by
  rcases walletCLI_cases hL inv disk with ⟨hdisk, hnot⟩ | ⟨text, hdisk, hcreated, hholds⟩
  · exact h.snoc (hlocate ▸ hnot place) (by rw [hdisk])
  · -- What was in the file is gone, also if it was created under another path.
    by_cases hplace : disk.locate inv.path = place
    · subst hplace
      refine .inr ⟨history, _, [], text, rfl, hlocate ▸ hcreated, by simp, ?_, hholds⟩
      rw [hdisk]
      exact files_write disk _ _
    · refine h.snoc (fun hat => hplace (hlocate ▸ hat.locate_eq)) ?_
      rw [hdisk]
      exact files_write_of_ne disk _ (Ne.symm hplace)

/-- Over any number of runs of the program with `--wallet`, on any files: a file where no wallet was
created is as it was, whatever paths lead to it; any other is what has got there of a text that
gives the phrase drawn in the last successful `create` there, under the password typed then; and no
`load` ever succeeds. -/
theorem console_keystores (hL : lib.crypto.Sound) (disk : Disk) (invs : List Invocation) :
    let runs := (consoleMachine lib).run disk invs
    (∀ place, Latest lib disk runs.1 runs.2 place) ∧
      ∀ run ∈ runs.2, run.1.command = str "load" → run.2.result ≠ .ok () := by
  intro runs
  have hguard : (consoleMachine lib).Guarded (fun _ _ => True) disk invs :=
    (consoleMachine lib).guarded_of_forall (fun _ _ => trivial) _ _
  constructor
  · intro place
    have hstart : disk.locate = disk.locate ∧ Latest lib disk disk [] place :=
      ⟨rfl, .inl ⟨by simp, rfl⟩⟩
    exact (Machine.run_history
      (fun after history => after.locate = disk.locate ∧ Latest lib disk after history place)
      (fun _ _ inv h _ => ⟨(locate_walletCLI hL inv _).trans h.1, h.2.step hL h.1 inv⟩)
      hstart hguard).2
  · refine (Machine.run_invariant (fun _ => True)
      (fun run => run.1.command = str "load" → run.2.result ≠ .ok ()) (fun disk inv _ _ => ?_)
      trivial hguard).2
    refine ⟨trivial, fun run hrun hload => ?_⟩
    obtain rfl := List.mem_singleton.mp hrun
    have hcreate : inv.command ≠ str "create" := by
      rw [hload]
      decide
    have hcli : walletCLI lib inv disk = (disk, loadCommand lib inv disk) := by
      rw [walletCLI, if_neg hcreate, if_pos hload]
    rw [hcli]
    exact loadCommand_result_ne inv disk

/-- The sample wallet is created under a path. -/
def createOnce (path : Str) : Invocation :=
  ⟨sampleEntropy, sampleDraw, sampleSave, [str "create", path, samplePassword]⟩

theorem createdAt_createOnce :
    CreatedAt emptyDisk.locate 0
      (createOnce (str "./w"),
        (walletCLI sampleLibraries (createOnce (str "./w")) emptyDisk).2) := by
  have hL : sampleLibraries.crypto.Sound := sampleLibrary_sound
  obtain ⟨w, disk, -, hcreate, -⟩ := exists_create_sample none (str "./w")
  have hopen : create sampleLibraries (createOnce (str "./w")).entropy (createOnce (str "./w")).draw
      (createOnce (str "./w")).path (createOnce (str "./w")).password emptyDisk =
        .ok (w, disk) := hcreate
  have hcli : walletCLI sampleLibraries (createOnce (str "./w")) emptyDisk =
      createCommand sampleLibraries (createOnce (str "./w")) emptyDisk := if_pos rfl
  obtain ⟨-, -, hresult, -⟩ := createCommand_of_ok hL hopen
  refine ⟨rfl, by decide, ?_⟩
  dsimp only
  rw [hcli, hresult]

/-- The file `w` gives the phrase of the wallet that was created as `./w`. -/
theorem console_keystores_createOnce :
    ∃ text, ((consoleMachine sampleLibraries).run emptyDisk [createOnce (str "./w")]).1.files
        (emptyDisk.locate (str "w")) = some text ∧
      Recovers sampleLibraries text samplePassword samplePhrase := by
  have hL : sampleLibraries.crypto.Sound := sampleLibrary_sound
  have hplace : emptyDisk.locate (str "w") = 0 := by decide
  rw [hplace]
  rcases (console_keystores hL emptyDisk [createOnce (str "./w")]).1 0 with
    ⟨hnone, -⟩ | ⟨earlier, run, later, text, hsplit, -, -, htext, hholds⟩
  · exact absurd createdAt_createOnce (hnone _ (List.mem_singleton_self _))
  · have hmem : run ∈ earlier ++ run :: later := by simp
    rw [← hsplit] at hmem
    obtain rfl := List.mem_singleton.mp hmem
    have hphrase : generateMnemonic sampleLibraries.sha256 (createOnce (str "./w")).entropy =
        samplePhrase := generateMnemonic_sample
    have hrecovers := hholds fun _ => by decide
    rw [hphrase] at hrecovers
    exact ⟨text, htext, hrecovers⟩

end

end Gambit
