import Unixprog.Hw1.Scan

/-! The functions of hw1.cpp, in the order of the source. The bodies of
readMem, readFd and readInfo are cut into their stages. -/
namespace Unixprog.Hw1
open CStrings Aborts

def error {α : Type} (what : String) : Op α := do
  complain (.failTo what)
  exit 1

/-- regexec on a compiled pattern, true where a filter lets the record pass. -/
def matching (w : World) (pattern : Option Str) (text : Op Str) : Op Bool :=
  match pattern with
  | none => pure true
  | some pattern =>
    match w.regcomp pattern with
    | none => error "regcomp"
    | some regexec => do
      let text ← text
      pure (regexec text)

def column (width : Nat) (text : Str) : Str := text.rightpad width ' '

def row (p : Info) : Str :=
  column 40 p.procName ++ column 20 (decimal p.pid) ++ column 20 p.userName ++ column 20 p.fd ++ column 20 p.type ++
    column 20 (if p.inode = -1 ∨ p.type = "unknown".toList then " ".toList else decimal p.inode) ++
    column 20 p.name ++ ['\n']

def printPinfo (w : World) (o : Options) : Op Unit := do
  change fun s => {s with handed := s.handed ++ [s.p]}
  let s ← current
  if o.typeFilter.isSome ∧ o.typeFilter ≠ some s.p.type then
    pure ()
  else if !(← matching w o.commRegex (pure s.p.procName)) then
    pure ()
  else if !(← matching w o.fileRegex (within MAX_NAME_SIZE s.p.name)) then
    pure ()
  else do
    let _ ← within MAX_NAME_SIZE s.p.name
    change fun s => {s with rows := s.rows ++ [row s.p]}

def isNum (str : Str) : Bool := str.all fun c => (decDigit c).isSome

def getUserName (w : World) (uid : BitVec 32) : Op Unit :=
  match w.getpwuid uid with
  | none => complain (.unknownUser uid)
  | some pwName => do
    let pwName ← within MAX_NAME_SIZE pwName
    setInfo fun p => {p with userName := pwName}

def linkType (mode : BitVec 32) (inode : Int) : Str :=
  if mode &&& S_IFMT = S_IFDIR then "DIR".toList
  else if mode &&& S_IFMT = S_IFREG then "REG".toList
  else if mode &&& S_IFMT = S_IFCHR then "CHR".toList
  else if mode &&& S_IFMT = S_IFIFO then "FIFO[".toList ++ decimal inode ++ [']']
  else if mode &&& S_IFMT = S_IFSOCK then "socket[".toList ++ decimal inode ++ [']']
  else "unknown".toList

def getMeta (link : Link) (path : Str) : Op Unit :=
  match link.stat with
  | .ok buffer => do
    setInfo fun p => {p with name := []}
    match link.target with
    | none => error "readlink"
    | some target => setInfo fun p => {p with
        name := target.take MAX_NAME_SIZE
        inode := toInt buffer.ino
        type := linkType buffer.mode (toInt buffer.ino)}
  | .denied => setInfo fun p => {p with
      inode := -1
      type := "unknown".toList
      name := path ++ " (Permission denied)".toList}
  | .failed => pure ()

/-- `size_t des = strlen(old)-10` and the loop that clears what stands behind index
`des` in `name`. -/
def cutMarker (old : Nat) (name : Str) : Str := name.take ((old+2^64-10)%2^64+1)

/-- The name and the FD column of a round of readMem's loop. -/
def memName (token : Option Str) : Op Unit :=
  match token with
  | none => error "strtok"
  | some token => do
    let token ← within MAX_NAME_SIZE token
    if token = [] then error "unexcepted mem name"
    else do
      let name := chomp token
      let s ← current
      if strstr name "(deleted)".toList then do
        let old ← within MAX_NAME_SIZE s.p.name
        setInfo fun p => {p with fd := "DEL".toList,name := cutMarker old.length name}
      else setInfo fun p => {p with fd := "mem".toList,name := name}

/-- One round of the loop of readMem; the value is `dict`. -/
def memLine (w : World) (o : Options) (dict : List Int) (line : Str) : Op (List Int) :=
  let address := strtok [' '] line
  let perms := strtok [' '] address.2
  let offset := strtok [' '] perms.2
  let dev := strtok [' '] offset.2
  let inode := strtok [' '] dev.2
  let segPid := inode.1.map atoi
  if segPid = some 0 ∨ segPid.any (· ∈ dict) then
    pure dict
  else do
    setInfo fun p => {p with inode := segPid.getD p.inode}
    memName (strtok [' '] inode.2).1
    printPinfo w o
    pure (segPid.toList ++ dict)

def memLines (w : World) (o : Options) : List Int → List Str → Op Unit
  | _,[] => pure ()
  | dict,line::rest => do
    let dict ← memLine w o dict line
    memLines w o dict rest

def readMem (w : World) (o : Options) (x : Process) : Op Unit := do
  setInfo fun p => {p with type := "REG".toList}
  let s ← current
  match x.maps with
  | none => pure ()
  | some lines => memLines w o [s.p.inode] lines

/-- The letters of the r and w bits; without both the listing is given up. -/
def accessSuffix (mode : BitVec 32) : Option Str :=
  let r := mode &&& S_IRUSR ≠ 0
  let w := mode &&& S_IWUSR ≠ 0
  if r ∧ w then some "u".toList
  else if r then some "r".toList
  else if w then some "w".toList
  else none

def fdType (mode : BitVec 32) : Option Str :=
  if mode &&& S_IFMT = S_IFDIR then some "DIR".toList
  else if mode &&& S_IFMT = S_IFREG then some "REG".toList
  else if mode &&& S_IFMT = S_IFCHR then some "CHR".toList
  else if mode &&& S_IFMT = S_IFIFO then some "FIFO".toList
  else if mode &&& S_IFMT = S_IFSOCK then some "SOCK".toList
  else none

def FD_SIZE : Nat := 10

def fdName (target : Option Str) : Op Unit := do
  setInfo fun p => {p with name := []}
  match target with
  | none => error "readlink"
  | some target => do
    let name ← within MAX_NAME_SIZE (target.take MAX_NAME_SIZE)
    -- The last character is read without asking whether there is one.
    if name = [] then undefined
    else setInfo fun p => {p with name := chomp name}

def fdMeta (name : Str) (buffer : Stat) : Op Unit := do
  let fd ← within FD_SIZE name
  setInfo fun p => {p with inode := toInt buffer.ino,fd := fd}
  match fdType buffer.mode with
  | some type => setInfo fun p => {p with type := type}
  | none => setInfo fun p => {p with name := [],type := "unknown".toList}

def fdAccess (mode : BitVec 32) : Op Unit :=
  match accessSuffix mode with
  | none => error "unexceped W/R permission"
  | some suffix => do
    let s ← current
    let fd ← within FD_SIZE (s.p.fd ++ suffix)
    setInfo fun p => {p with
      fd := fd
      name := if strstr p.name "(deleted)".toList then cutMarker p.name.length p.name else p.name}

/-- One round of the loop of readFd, false where it returns from the function. -/
def fdEntry (w : World) (o : Options) (e : Entry) : Op Bool := do
  fdName e.target
  match e.stat with
  | none => pure false
  | some buffer => do
    fdMeta e.name buffer
    match e.lstat with
    | none => pure false
    | some link => do
      fdAccess link.mode
      printPinfo w o
      pure true

def fdEntries (w : World) (o : Options) : List Entry → Op Unit
  | [] => pure ()
  | e::rest => do
    if isNum e.name then
      if ← fdEntry w o e then fdEntries w o rest
    else fdEntries w o rest

def procPath (x : Process) (file : String) : Str := "/proc/".toList ++ x.name ++ '/'::file.toList

def readFd (w : World) (o : Options) (x : Process) : Op Unit :=
  match x.fds with
  | none => do
    setInfo fun p => {p with
      fd := "NOFD".toList
      type := []
      inode := -1
      name := procPath x "fd" ++ " (Permission denied)".toList}
    printPinfo w o
  | some dir =>
    if !dir.entered then error "chdir"
    else fdEntries w o dir.entries

/-- `fscanf(fd,"%d %s\n",..)`: what both conversions read, if both do. -/
def scanStat (text : Str) : Option (Int × Str) :=
  let body := text.dropWhile isSpace
  let sign := body.takeWhile fun c => c = '-' || c = '+'
  let digits := (body.drop (sign.take 1).length).takeWhile fun c => (decDigit c).isSome
  let rest := (body.drop (sign.take 1).length).dropWhile fun c => (decDigit c).isSome
  let word := (rest.dropWhile isSpace).takeWhile fun c => !isSpace c
  if digits = [] ∨ word = [] then none else some (atoi (sign.take 1 ++ digits),word)

def readStat (text : Str) : Op Unit :=
  match scanStat text with
  | none => error "fscanf"
  | some (pid,word) => do
    setInfo fun p => {p with pid := pid}
    let pName ← within MAX_NAME_SIZE word
    let procName := pName.drop 1
    -- The last character is overwritten without asking whether there is one.
    if procName = [] then undefined
    else setInfo fun p => {p with procName := procName.dropLast}

def readLinks (w : World) (o : Options) (x : Process) : Op Unit := do
  setInfo fun p => {p with fd := "cwd".toList}
  getMeta x.cwd (procPath x "cwd")
  printPinfo w o
  getMeta x.root (procPath x "root")
  setInfo fun p => {p with fd := "rtd".toList}
  printPinfo w o
  getMeta x.exe (procPath x "exe")
  setInfo fun p => {p with fd := "txt".toList}
  printPinfo w o

def readInfo (w : World) (o : Options) (x : Process) : Op Unit :=
  match x.stat with
  | none => pure ()
  | some buffer => do
    getUserName w buffer.uid
    match x.statFile with
    | none => pure ()
    | some text => do
      readStat text
      readLinks w o x
      readMem w o x
      readFd w o x

/-- The loop of main over the entries of `/proc`. The record is a local of the loop
body that nothing initialises: it holds what the entry before has left. -/
def listProcesses (w : World) (o : Options) : List Process → Op Unit
  | [] => pure ()
  | x::rest => do
    if isNum x.name then readInfo w o x
    listProcesses w o rest

/-- What getopt delivers, an option that it does not know as `other`. -/
inductive Opt
  | c (optarg : Str)
  | t (optarg : Str)
  | f (optarg : Str)
  | other

def usage {α : Type} : Op α := do
  complain .usage
  exit 1

def parseOptions (o : Options) : List Opt → Op Options
  | [] => pure o
  | .c optarg::rest => parseOptions {o with commRegex := some optarg} rest
  | .t optarg::rest => parseOptions {o with typeFilter := some optarg} rest
  | .f optarg::rest => parseOptions {o with fileRegex := some optarg} rest
  | .other::_ => usage

def typeNames : List Str :=
  ["REG".toList,"CHR".toList,"DIR".toList,"FIFO".toList,"SOCK".toList,"unknown".toList]

def header : Str :=
  column 40 "COMMAND".toList ++ column 20 "PID".toList ++ column 20 "USER".toList ++ column 20 "FD".toList ++
    column 20 "TYPE".toList ++ column 20 "NODE".toList ++ column 20 "NAME".toList ++ ['\n']

/-- main behind its options. -/
def listing (w : World) (o : Options) : Op Unit := do
  if o.typeFilter.any (· ∉ typeNames) then
    complain .invalidType
    exit 1
  change fun s => {s with rows := s.rows ++ [header]}
  match w.processes with
  | none => undefined
  | some processes => listProcesses w o processes

def main (w : World) (opts : List Opt) (operands : Nat) : Op Unit := do
  let o ← parseOptions ⟨none,none,none⟩ opts
  if 0 < operands then usage
  listing w o

end Unixprog.Hw1
