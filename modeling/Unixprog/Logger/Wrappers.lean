import Unixprog.Logger.Calls

/-! The functions of logger.c, in the order of the source. -/
namespace Unixprog.Logger
open Words Plays

def BUFSIZE : Nat := 256

/-- The result is written into an array of BUFSIZE bytes, and so is what a failing realpath leaves. -/
def getAbsPath (path : Path) : Op Str := do
  let r_path ← ask (.realpath path)
  match r_path.value with
  | .path name => if name.length < BUFSIZE then pure name else undefined
  | .failed left => if left.length < BUFSIZE then pure "untouched".toList else undefined
  | .fault => undefined

def getFD : Op Int := do
  let s ← state
  if s.fd < 0 then
    let logger ← ask .logger
    match logger.value with
    | none => undefined
    | some fd =>
      update fun s => {s with fd := fd}
      pure fd
  else pure s.fd

/-- A link of BUFSIZE bytes or more leaves no room for the terminator. -/
def FD2name (fd : Int) : Op Str := do
  let pid ← ask .getpid
  let buf := s!"/proc/{pid.value}/fd/{fd}".toList
  let name ← ask (.readlink buf)
  match name.value with
  | none => pure []
  | some name => if name.length < BUFSIZE then pure name else undefined

def FILE2name (stream : Stream) : Op Str := do
  let fd ← ask (.fileno stream)
  FD2name fd.value

def find_fptr (f : Fn) : Op Unit := do
  let s ← state
  if f ∉ s.found then
    let handle ← ask .dlopen
    if handle.value then
      let symbol ← ask (.dlsym f)
      if symbol.value then update fun s => {s with found := f::s.found}
    else
      let _ ← ask (.dprintf 2 "dlopen failed.\n".toList)
      exit 1

def CHECKER (f : Fn) : Op Unit := do
  let s ← state
  if f ∉ s.found then
    let _ ← ask (.fprintf s!"function pointer of {f.name} not found.\n".toList)
    exit 1

def log (text : Str) : Op Unit := do
  let fd ← getFD
  let _ ← ask (.dprintf fd text)

def callReal (call : Call) : Op Int := do
  let result ← ask (.real call)
  pure result.value

/-! The conversions of the formats. -/

def decimal (n : Int) : Str := (toString n).toList

def octal (n : BitVec 32) : Str := Nat.toDigits 8 n.toNat

def pointer (n : Int) : Str := if n = 0 then "(nil)".toList else "0x".toList ++ Nat.toDigits 16 n.toNat

def quoted (s : Str) : Str := "\"".toList ++ s ++ "\"".toList

def record (f : Fn) (args : List Str) (result : Str) : Str :=
  s!"[logger] {f.name}(".toList ++ ", ".toList.intercalate args ++ ") = ".toList ++ result ++ "\n".toList

/-! The bodies that several wrappers share. -/

/-- The path is resolved before the call. -/
def resolveFirst (f : Fn) (path : Path) (real : Call) (text : Str → Int → Str) : Op Int := do
  find_fptr f
  CHECKER f
  let r_path ← getAbsPath path
  let result ← callReal real
  log (text r_path result)
  pure result

/-- The path is resolved after the call. -/
def resolveLast (f : Fn) (path : Path) (real : Call) (text : Str → Int → Str) : Op Int := do
  find_fptr f
  CHECKER f
  let result ← callReal real
  let r_path ← getAbsPath path
  log (text r_path result)
  pure result

/-- `__OPEN_NEEDS_MODE`: O_CREAT, or all of O_TMPFILE. -/
def needsMode (flags : BitVec 32) : Bool := flags &&& 0x40#32 ≠ 0 || flags &&& 0x410000#32 = 0x410000#32

/-- A `ssize_t` or a `size_t` compared with a `size_t`. -/
def asSize (n : Int) : Nat := (n % 2^64).toNat

def isprint (c : Byte) : Bool := 0x20 ≤ c.toNat && c.toNat < 0x7f

def printed (c : Byte) : Str := if isprint c then [Char.ofNat c.toNat] else ".".toList

/-- `for(size_t i=0;i<count && i<32 && i<result;++i)`, with `left` rounds to 32. -/
def preview (buf : Word) (count : Nat) (result : Int) : Nat → Nat → Op Unit
  | 0,_ => pure ()
  | left+1,i =>
    if i < count ∧ i < asSize result then do
      let c ← ask (.peek (buf+BitVec.ofNat 64 i))
      match c.value with
      | none => undefined
      | some c =>
        log (printed c)
        preview buf count result left (i+1)
    else pure ()

def transfer (f : Fn) (name : Op Str) (buf : Word) (count : Nat) (real : Call) (head : Str → Str)
    (tail : Str → Int → Str) : Op Int := do
  find_fptr f
  CHECKER f
  let result ← callReal real
  let name ← name
  log (head name)
  preview buf count result 32 0
  log (tail name result)
  pure result

/-! The wrappers. -/

def chmod (path : Path) (mode : BitVec 32) : Op Int :=
  resolveFirst .chmod path (.chmod path mode) fun r_path result =>
    record .chmod [quoted r_path,octal mode] (decimal result)

def chown (path : Path) (owner group : BitVec 32) : Op Int :=
  resolveFirst .chown path (.chown path owner group) fun r_path result =>
    record .chown [quoted r_path,decimal owner.toNat,decimal group.toNat] (decimal result)

def close (fildes : Int) : Op Int := do
  find_fptr .close
  CHECKER .close
  let name ← FD2name fildes
  let result ← if fildes ≠ 2 then callReal (.close fildes) else pure 0
  log (record .close [quoted name] (decimal result))
  pure result

def creat (path : Path) (mode : BitVec 32) : Op Int :=
  resolveLast .creat path (.creat path mode) fun r_path result =>
    record .creat [quoted r_path,octal mode] (decimal result)

def creat64 (path : Path) (mode : BitVec 32) : Op Int :=
  resolveLast .creat64 path (.creat64 path mode) fun r_path result =>
    record .creat64 [quoted r_path,octal mode] (decimal result)

def fclose (stream : Stream) : Op Int := do
  find_fptr .fclose
  CHECKER .fclose
  let name ← FILE2name stream
  let result ← if stream ≠ .stderr then callReal (.fclose stream) else pure 0
  log (record .fclose [quoted name] (decimal result))
  pure result

def fopen (pathname : Path) (mode : Str) : Op Int :=
  resolveLast .fopen pathname (.fopen pathname mode) fun r_path result =>
    record .fopen [quoted r_path,quoted mode] (pointer result)

def fopen64 (pathname : Path) (mode : Str) : Op Int :=
  resolveLast .fopen64 pathname (.fopen64 pathname mode) fun r_path result =>
    record .fopen64 [quoted r_path,quoted mode] (pointer result)

def fread (ptr : Word) (size nmemb : Nat) (stream : Stream) : Op Int :=
  transfer .fread (FILE2name stream) ptr nmemb (.fread ptr size nmemb stream)
    (fun _ => s!"[logger] {Fn.fread.name}(\"".toList)
    fun name result => "\", ".toList ++ decimal size ++ ", ".toList ++ decimal nmemb ++ ", ".toList ++ quoted name ++
      ") = ".toList ++ decimal result ++ "\n".toList

def fwrite (ptr : Word) (size nmemb : Nat) (stream : Stream) : Op Int :=
  transfer .fwrite (FILE2name stream) ptr nmemb (.fwrite ptr size nmemb stream)
    (fun _ => s!"[logger] {Fn.fwrite.name}(\"".toList)
    fun name result => "\", ".toList ++ decimal size ++ ", ".toList ++ decimal nmemb ++ ", ".toList ++ quoted name ++
      ") = ".toList ++ decimal result ++ "\n".toList

/-- The mode that va_arg fetches, 0 when the flags need none. -/
def modeOf (flags mode : BitVec 32) : BitVec 32 := if needsMode flags then mode else 0

def «open» (pathname : Path) (flags mode : BitVec 32) : Op Int :=
  resolveLast .open pathname (.open pathname flags (modeOf flags mode)) fun r_path result =>
    record .open [quoted r_path,octal flags,octal (modeOf flags mode)] (decimal result)

def open64 (pathname : Path) (flags mode : BitVec 32) : Op Int :=
  resolveLast .open64 pathname (.open64 pathname flags (modeOf flags mode)) fun r_path result =>
    record .open64 [quoted r_path,octal flags,octal (modeOf flags mode)] (decimal result)

def read (fildes : Int) (buf : Word) (nbyte : Nat) : Op Int :=
  transfer .read (FD2name fildes) buf nbyte (.read fildes buf nbyte)
    (fun name => s!"[logger] {Fn.read.name}(".toList ++ quoted name ++ ", \"".toList)
    fun _ result => "\", ".toList ++ decimal nbyte ++ ") = ".toList ++ decimal result ++ "\n".toList

def remove (pathname : Path) : Op Int :=
  resolveFirst .remove pathname (.remove pathname) fun r_path result =>
    record .remove [quoted r_path] (decimal result)

def rename (old new : Path) : Op Int := do
  find_fptr .rename
  CHECKER .rename
  let r_old ← getAbsPath old
  let result ← callReal (.rename old new)
  let r_new ← getAbsPath new
  log (record .rename [quoted r_old,quoted r_new] (decimal result))
  pure result

def temporary (f : Fn) (real : Call) : Op Int := do
  find_fptr f
  CHECKER f
  let result ← callReal real
  log (record f [] (pointer result))
  pure result

def tmpfile : Op Int := temporary .tmpfile .tmpfile

def tmpfile64 : Op Int := temporary .tmpfile64 .tmpfile64

def write (fildes : Int) (buf : Word) (nbyte : Nat) : Op Int :=
  transfer .write (FD2name fildes) buf nbyte (.write fildes buf nbyte)
    (fun name => s!"[logger] {Fn.write.name}(".toList ++ quoted name ++ ", \"".toList)
    fun _ result => "\", ".toList ++ decimal nbyte ++ ") = ".toList ++ decimal result ++ "\n".toList

def Call.perform : Call → Op Int
  | .chmod path mode => Logger.chmod path mode
  | .chown path owner group => Logger.chown path owner group
  | .close fildes => Logger.close fildes
  | .creat path mode => Logger.creat path mode
  | .creat64 path mode => Logger.creat64 path mode
  | .fclose stream => Logger.fclose stream
  | .fopen pathname mode => Logger.fopen pathname mode
  | .fopen64 pathname mode => Logger.fopen64 pathname mode
  | .fread ptr size nmemb stream => Logger.fread ptr size nmemb stream
  | .fwrite ptr size nmemb stream => Logger.fwrite ptr size nmemb stream
  | .open pathname flags mode => Logger.open pathname flags mode
  | .open64 pathname flags mode => Logger.open64 pathname flags mode
  | .read fildes buf nbyte => Logger.read fildes buf nbyte
  | .remove pathname => Logger.remove pathname
  | .rename old new => Logger.rename old new
  | .tmpfile => Logger.tmpfile
  | .tmpfile64 => Logger.tmpfile64
  | .write fildes buf nbyte => Logger.write fildes buf nbyte

end Unixprog.Logger
