import AICacheDB.Persistence.Snapshot
import AICacheDB.Replication.Completions

open CLib List Machine

namespace AICacheDB.Rdma

variable {F : Type} [LinearOrder F] (A : FloatText F)

variable {s t u : Server F} (memory : CString → Bool) (reset : Server F → Server F × Bool) {envs : Nat → RdbEnv}

end AICacheDB.Rdma
