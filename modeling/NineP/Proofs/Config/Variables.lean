import NineP.Config
import NineP.Proofs.Address.Written

/-!
# Settings in variables

Settings that are written to variables are read back from them, and whatever the variables
hold, what is read from them can be used, or else it is refused as a mistake:

* `Screened`: a result that is right, or else the refusal of a mistake;
* `Config.screened_ofVariablesBy`: the settings that are read are screened;
* `Config.Written`: the variables that settings are written to;
* `Config.mapM_of_holds`: what may be missing is read back, variable by variable;
* `Config.ofVariablesBy_of_written`: all of it is read back;
* `Config.read_written`: both together, whoever looks up the names of hosts.
-/

namespace NineP

/-! ## Mistakes -/

/-- A result that is right, or else the refusal of a mistake of the caller. -/
def Screened (Right : α → Prop) (r : Except Error α) : Prop :=
  (∃ a, r = .ok a ∧ Right a) ∨ ∃ misuse, r = .error (.invalidParameter misuse)

namespace Screened

variable {Right : α → Prop} {Right' : β → Prop}

theorem ok {a : α} (h : Right a) : Screened Right (.ok a) := .inl ⟨a, rfl, h⟩

theorem refused (misuse : Misuse) : Screened Right (.error (.invalidParameter misuse)) :=
  .inr ⟨misuse, rfl⟩

/-- If the first step is screened, and the second one after what is right, then both are. -/
theorem bind {r : Except Error α} {f : α → Except Error β} (hr : Screened Right r)
    (hf : ∀ a, Right a → Screened Right' (f a)) : Screened Right' (r >>= f) := by
  obtain ⟨a, rfl, ha⟩ | ⟨misuse, rfl⟩ := hr
  · exact hf a ha
  · exact .refused misuse

/-- What may be missing is screened if what is there is. -/
theorem mapM {f : α → Except Error β} (hf : ∀ a, Screened Right' (f a)) (o : Option α) :
    Screened (fun found => ∀ b ∈ found, Right' b) (o.mapM f) := by
  cases o with
  | none => exact .ok nofun
  | some a => exact (hf a).bind fun b hb => .ok fun _ hmem => Option.some.inj hmem ▸ hb

end Screened

theorem screened_parseIPv4 (value : String) : Screened (fun _ => True) (parseIPv4 value) := by
  rw [parseIPv4]
  split
  · exact .ok trivial
  · exact .refused _

theorem screened_parseIPv4Address (value : String) (defaultPort : UInt16) :
    Screened (fun _ => True) (parseIPv4Address value defaultPort) := by
  simp only [parseIPv4Address]
  split
  · split
    · exact (screened_parseIPv4 _).bind fun _ _ => .ok trivial
    · exact .refused _
  · exact (screened_parseIPv4 _).bind fun _ _ => .ok trivial

theorem screened_parseDialBy (names : HostNames) (value : String) (defaultPort : UInt16) :
    Screened (fun _ => True) (parseDialBy names value defaultPort) := by
  simp only [parseDialBy]
  split
  · exact .ok trivial
  · exact .refused _

namespace Config

theorem screened_validate (config : Config) :
    Screened (fun _ => config.validate = .ok ()) config.validate := by
  cases hv : config.validate with
  | ok u => exact .ok rfl
  | error e =>
    rw [validate] at hv
    split at hv
    · exact Except.error.inj hv ▸ .refused _
    split at hv
    · exact Except.error.inj hv ▸ .refused _
    split at hv
    · exact Except.error.inj hv ▸ .refused _
    · cases hv

theorem screened_number (max : Nat) (name value : String) :
    Screened (fun _ => True) (number max name value) := by
  rw [number]
  split
  · exact .ok trivial
  · exact .refused _

variable {names : HostNames} {lookup : String → Option String} {config : Config}

theorem screened_readRemote (value : Option String) :
    Screened (fun _ => True) (readRemote names value) := by
  cases value with
  | none => exact .refused _
  | some value =>
    rw [readRemote]
    exact screened_parseDialBy names _ _

theorem screened_readStation (value : String) : Screened (fun _ => True) (readStation value) :=
  (screened_parseIPv4Address value 0).bind fun _ _ => .ok trivial

/-- Whatever the variables hold, the settings that are read from them are acceptable, or
else a mistake is refused. -/
theorem screened_ofVariablesBy :
    Screened (fun config => config.validate = .ok ()) (ofVariablesBy names lookup) := by
  refine (screened_readRemote _).bind fun remote _ => ?_
  refine (Screened.mapM screened_readStation _).bind fun station _ => ?_
  refine (Screened.mapM screened_parseIPv4 _).bind fun mask _ => ?_
  refine (Screened.mapM (screened_number _ _) _).bind fun msize _ => ?_
  refine (Screened.mapM (screened_number _ _) _).bind fun timeout _ => ?_
  exact (screened_validate _).bind fun _ h => .ok h

/-! ## Variables that are written -/

/-- A variable holds a text, white space around it aside, or it is not set. -/
def Holds (lookup : String → Option String) (name : String) : Option String → Prop
  | some text => ∃ value, lookup name = some value ∧ Text.Padded text value
  | none => lookup name = none

/-- The variables hold the settings: numbers in decimal digits, addresses in one of their
forms, the names as they are. What the settings leave open is not set. -/
structure Written (config : Config) (lookup : String → Option String) : Prop where
  remote : ∃ text ∈ config.remote.dialForms, Holds lookup remoteVariable (some text)
  station : Holds lookup stationVariable (config.station.map SocketAddress.text)
  subnetMask : Holds lookup maskVariable (config.subnetMask.map IPv4.text)
  uname : lookup unameVariable = some config.uname
  aname : lookup anameVariable = some config.aname
  msize : Holds lookup msizeVariable (some (toString config.msize.toNat))
  timeout : Holds lookup timeoutVariable (config.timeout.map fun limit => toString limit.toNat)

/-- A variable that holds a word is not missing. -/
theorem value?_of_holds {name text : String} (hword : Text.IsWord text)
    (h : Holds lookup name (some text)) :
    ∃ value, value? lookup name = some value ∧ Text.Padded text value := by
  obtain ⟨value, hvalue, hpadded⟩ := h
  refine ⟨value, ?_, hpadded⟩
  rw [value?, hvalue, Option.filter_some, Text.isBlankText_of_padded hpadded hword]
  rfl

/-- What may be missing is read back if it is written as a word from which it is read,
white space around the word aside. -/
theorem mapM_of_holds {name : String} {o : Option α} {write : α → String}
    {read : String → Except Error α} (hword : ∀ a ∈ o, Text.IsWord (write a))
    (hread : ∀ a ∈ o, ∀ value, Text.Padded (write a) value → read value = .ok a)
    (h : Holds lookup name (o.map write)) : (value? lookup name).mapM read = .ok o := by
  cases o with
  | none =>
    have hunset : lookup name = none := h
    rw [value?, hunset]
    rfl
  | some a =>
    obtain ⟨value, hvalue, hpadded⟩ := value?_of_holds (hword a rfl) h
    rw [hvalue, Option.mapM_some, hread a rfl value hpadded]
    rfl

theorem number_of_padded {max n : Nat} {value : String} (hmax : n ≤ max) (name : String)
    (h : Text.Padded (toString n) value) : number max name value = .ok n := by
  rw [number, Text.trim_of_padded h (Text.isWord_toString n), Text.readNatural?_toString hmax]

theorem readStation_of_padded {address : SocketAddress} (hv4 : address.IsV4) {value : String}
    (h : Text.Padded address.text value) : readStation value = .ok address := by
  cases address with
  | v6 _ _ _ => exact hv4.elim
  | v4 a port => rw [readStation, parseIPv4Address_of_padded 0 h]; rfl

namespace Written

theorem readRemote_eq (h : config.Written lookup) (hremote : config.remote.IsV4)
    (names : HostNames) :
    readRemote names (value? lookup remoteVariable) = .ok config.remote := by
  obtain ⟨text, htext, hholds⟩ := h.remote
  have hword : Text.IsWord text := SocketAddress.isWord_of_mem_dialForms hremote htext
  obtain ⟨value, hvalue, hpadded⟩ := value?_of_holds hword hholds
  rw [hvalue, readRemote, Text.trim_of_padded hpadded hword]
  exact parseDialBy_of_mem_dialForms hremote htext names defaultPort

theorem mapM_readStation (h : config.Written lookup)
    (hstation : ∀ address ∈ config.station, address.IsV4) :
    (value? lookup stationVariable).mapM readStation = .ok config.station := by
  refine mapM_of_holds (fun address ha => ?_)
    (fun address ha _ => readStation_of_padded (hstation address ha)) h.station
  cases address with
  | v6 _ _ _ => exact (hstation _ ha).elim
  | v4 a port => exact SocketAddress.isWord_text a port

theorem mapM_parseIPv4 (h : config.Written lookup) :
    (value? lookup maskVariable).mapM parseIPv4 = .ok config.subnetMask :=
  mapM_of_holds (fun a _ => IPv4.isWord_text a) (fun _ _ _ => parseIPv4_of_padded) h.subnetMask

/-- A user's name is kept unless it is blank. -/
theorem value?_uname (h : config.Written lookup)
    (huname : ∃ c ∈ config.uname.toList, Text.isBlank c = false) :
    value? lookup unameVariable = some config.uname := by
  obtain ⟨c, hmem, hc⟩ := huname
  rw [value?, h.uname, Option.filter_some, Text.isBlankText_of_mem hmem hc]
  rfl

theorem mapM_msize (h : config.Written lookup) :
    (value? lookup msizeVariable).mapM (number (UInt32.size - 1) msizeVariable) =
      .ok (some config.msize.toNat) := by
  have hmax : config.msize.toNat ≤ UInt32.size - 1 := Nat.le_pred_of_lt config.msize.toNat_lt
  have hholds : Holds lookup msizeVariable ((some config.msize.toNat).map toString) := h.msize
  refine mapM_of_holds (fun n _ => Text.isWord_toString n) (fun n hn value => ?_) hholds
  cases hn
  exact number_of_padded hmax msizeVariable

theorem mapM_timeout (h : config.Written lookup) :
    (value? lookup timeoutVariable).mapM (number (UInt64.size - 1) timeoutVariable) =
      .ok (config.timeout.map UInt64.toNat) := by
  have hholds : Holds lookup timeoutVariable ((config.timeout.map UInt64.toNat).map toString) := by
    rw [Option.map_map]
    exact h.timeout
  refine mapM_of_holds (fun n _ => Text.isWord_toString n) (fun n hn value => ?_) hholds
  obtain ⟨limit, -, rfl⟩ := Option.map_eq_some_iff.1 hn
  exact number_of_padded (Nat.le_pred_of_lt limit.toNat_lt) timeoutVariable

end Written

/-- Acceptable settings are read back from the variables that they are written to. -/
theorem ofVariablesBy_of_written (names : HostNames) (h : config.Written lookup)
    (hvalid : config.validate = .ok ()) (hremote : config.remote.IsV4)
    (hstation : ∀ address ∈ config.station, address.IsV4)
    (huname : ∃ c ∈ config.uname.toList, Text.isBlank c = false) :
    ofVariablesBy names lookup = .ok config := by
  have htimeout : (config.timeout.map UInt64.toNat).map UInt64.ofNat = config.timeout := by
    cases config.timeout <;> simp
  simp only [ofVariablesBy, bind, Except.bind, h.readRemote_eq hremote,
    h.mapM_readStation hstation, h.mapM_parseIPv4, h.mapM_msize, h.mapM_timeout,
    h.value?_uname huname, h.aname, Option.map_some, Option.getD_some, UInt32.ofNat_toNat,
    htimeout, hvalid]
  rfl

/-- Acceptable settings with addresses of version 4 and a user's name that is not blank are
read back from the variables that they are written to, and whatever the variables hold, what
is read from them is acceptable, or else a mistake is refused. -/
theorem read_written (names : HostNames) :
    (∀ (config : Config) (lookup : String → Option String), config.Written lookup →
      config.validate = .ok () → config.remote.IsV4 →
      (∀ address ∈ config.station, address.IsV4) →
      (∃ c ∈ config.uname.toList, Text.isBlank c = false) →
      ofVariablesBy names lookup = .ok config) ∧
    ∀ lookup : String → Option String,
      Screened (fun config => config.validate = .ok ()) (ofVariablesBy names lookup) :=
  ⟨fun _ _ h hvalid hremote hstation huname =>
    ofVariablesBy_of_written names h hvalid hremote hstation huname,
    fun _ => screened_ofVariablesBy⟩

/-- Settings with everything set. -/
def everythingSet : Config where
  station := some (.v4 (.ofOctets 192 168 0 5) 4000)
  subnetMask := some (.ofOctets 255 255 255 0)
  remote := .v4 (.ofOctets 192 168 0 1) 5640
  uname := "alice"
  aname := "/srv/export"
  msize := 65536
  timeout := some 1500

/-- Variables that hold them, with white space around most of them. -/
def paddedVariables : String → Option String
  | "P9_STATION_ADDR" => some "192.168.0.5:4000"
  | "P9_SUBNET_MASK" => some "\t255.255.255.0"
  | "P9_REMOTE_ADDR" => some " tcp!192.168.0.1!5640\n"
  | "P9_UNAME" => some "alice"
  | "P9_ANAME" => some "/srv/export"
  | "P9_MSIZE" => some "65536\r\n"
  | "P9_TIMEOUT_MS" => some " 1500 "
  | _ => none

theorem read_written_of_padded : ofVariables paddedVariables = .ok everythingSet := by
  refine (read_written spelledHosts).1 everythingSet paddedVariables ?_ rfl trivial ?_ ?_
  · exact
      { remote := ⟨_, .tail _ (.head _), _, rfl, .of_all " " "\n" (by decide +kernel) rfl rfl⟩
        station := ⟨_, rfl, .of_all "" "" (by decide +kernel) rfl rfl⟩
        subnetMask := ⟨_, rfl, .of_all "\t" "" (by decide +kernel) rfl rfl⟩
        uname := rfl
        aname := rfl
        msize := ⟨_, rfl, .of_all "" "\r\n" (by decide +kernel) rfl rfl⟩
        timeout := ⟨_, rfl, .of_all " " " " (by decide +kernel) rfl rfl⟩ }
  · rintro _ ⟨⟩
    exact trivial
  · exact ⟨'a', by decide, rfl⟩

end Config

end NineP
